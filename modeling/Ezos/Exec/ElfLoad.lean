import Ezos.Exec.ElfUnwind
import Ezos.Mem.PagingRuns

/-!
# Failure of `elf_load`

`Loaded` describes the machine after some segments: their frames are newly allocated and
the entry of a page shows the frame of the last segment that covers it. A failing load
unwinds exactly such a state, so it leaves no trace if and only if those segments share
no page.
-/

namespace Ezos.Elf

open Lib.Memory Lib.Overlay Paging Pmm

set_option autoImplicit false

variable {m m₀ m' : Machine} {va phys : U32} {n : Nat} {l : List ElfSeg} {ph : Phdr}

/-- Page structures of a running kernel: tables do not overlap, and none of them lies in a frame
that the allocator still has to give. -/
structure MachineOk (m : Machine) : Prop where
  wf : WF m.pg
  tables : ∀ i < 1024, Present (pde m.pg i) → ∀ k < 1536, ¬ Allocated m.pmm k →
    tableOf m.pg i ≠ 0xA00000 + k * 4096

/-- What a failed load must leave behind: the allocated pages and the answers of the page table
as before, at most empty tables added, and no mapping of a free page that was not there before. -/
structure Restored (m m' : Machine) : Prop where
  allocated : ∀ k < poolPages.toNat, Allocated m'.pmm k ↔ Allocated m.pmm k
  queries : ∀ virt, pagingQuery m'.pg virt = pagingQuery m.pg virt
  tables : Extends m.pg m'.pg
  noDangling : ∀ virt frame flags, pagingQuery m'.pg virt = some (frame, flags) →
    ∀ k < poolPages.toNat, frame.toNat = poolStart.toNat + k * 4096 → ¬ Allocated m'.pmm k →
    pagingQuery m.pg virt = some (frame, flags) ∧ ¬ Allocated m.pmm k

def pieceOf (g : ElfSeg) : Piece :=
  { first := pageOf g.va, count := g.pages.toNat, frame := firstPage g.phys }

def pieces (l : List ElfSeg) : List Piece := l.map pieceOf

@[simp] theorem pieces_append (l l' : List ElfSeg) : pieces (l ++ l') = pieces l ++ pieces l' :=
  List.map_append

theorem look_pieces_append (l : List ElfSeg) (g : ElfSeg) (p : Nat) : look (pieces (l ++ [g])) p =
    if (pieceOf g).Covers p then some ((pieceOf g).at p) else look (pieces l) p := by
  rw [pieces_append]
  exact look_append_singleton (pieces l) (pieceOf g) p

structure Loaded (m₀ m : Machine) (l : List ElfSeg) : Prop where
  wf : WF m.pg
  ext : Extends m₀.pg m.pg
  start : l = [] → m = m₀
  slot : l ≠ [] → Present (pde m.pg imageSlot) ∧ m.pmm.ready = true
  image : ∀ g ∈ l, ImagePages g.va g.pages.toNat
  pool : ∀ g ∈ l, PoolPages g.phys g.pages.toNat
  apart : (pieces l).Pairwise ValuesApart
  fresh : ∀ g ∈ pieces l, ∀ k, g.Holds k → ¬ Allocated m₀.pmm k
  alloc : ∀ k, Allocated m.pmm k ↔ Allocated m₀.pmm k ∨ ∃ g ∈ pieces l, g.Holds k
  shown : ∀ p < 2 ^ 20, ∀ f, look (pieces l) p = some f →
    Present (pteAt m.pg p) ∧ (pteAt m.pg p &&& frameMask).toNat = 0xA00000 + f * 4096
  other : ∀ p < 2 ^ 20, look (pieces l) p = none → pteAt m.pg p = pteAt m₀.pg p

theorem Loaded.nil (h : WF m₀.pg) : Loaded m₀ m₀ [] where
  wf := h
  ext := Extends.refl _
  start := fun _ => rfl
  slot := fun hne => absurd rfl hne
  image := fun _ hg => nomatch hg
  pool := fun _ hg => nomatch hg
  apart := .nil
  fresh := fun _ hg => nomatch hg
  alloc := fun _ => ⟨Or.inl, fun h => h.resolve_right fun ⟨_, hg, _⟩ => nomatch hg⟩
  shown := fun _ _ _ hs => nomatch hs
  other := fun _ _ _ => rfl

theorem Loaded.step {pmm : Pmm.State} {pg : Paging.State} (flags : U32) (g : ElfSeg)
    (h : Loaded m₀ m l) (hphys : ∀ k, (pieceOf g).Holds k → ¬ Allocated m.pmm k)
    (himg : ImagePages g.va g.pages.toNat) (hpool : PoolPages g.phys g.pages.toNat)
    (hready : pmm.ready = true) (hslot : Present (pde pg imageSlot))
    (halloc : ∀ k, Allocated pmm k ↔ Allocated m.pmm k ∨ (pieceOf g).Holds k)
    (heff : Effect m.pg pg (fun p => if (pieceOf g).Covers p then rangeEntry g.va g.phys flags p
      else pteAt m.pg p)) :
    Loaded m₀ { pmm := pmm, pg := pg } (l ++ [g]) where
  wf := heff.wf
  ext := h.ext.trans heff.ext
  start := fun he => absurd he (by simp)
  slot := fun _ => ⟨hslot, hready⟩
  image := fun g' hg' => by
    rcases List.mem_append.mp hg' with hg' | hg'
    · exact h.image g' hg'
    · exact List.mem_singleton.mp hg' ▸ himg
  pool := fun g' hg' => by
    rcases List.mem_append.mp hg' with hg' | hg'
    · exact h.pool g' hg'
    · exact List.mem_singleton.mp hg' ▸ hpool
  apart := by
    rw [pieces_append]
    refine List.pairwise_append.mpr ⟨h.apart, List.pairwise_singleton _ _, ?_⟩
    intro a ha b hb k hak hbk
    obtain rfl := List.mem_singleton.mp hb
    exact hphys k hbk ((h.alloc k).mpr (Or.inr ⟨a, ha, hak⟩))
  fresh := fun a ha k hk hall => by
    rw [pieces_append] at ha
    rcases List.mem_append.mp ha with ha | ha
    · exact h.fresh a ha k hk hall
    · obtain rfl := List.mem_singleton.mp ha
      exact hphys k hk ((h.alloc k).mpr (Or.inl hall))
  alloc := fun k => by
    rw [halloc k, h.alloc k, pieces_append]
    constructor
    · rintro ((hk | ⟨a, ha, hk⟩) | hk)
      · exact Or.inl hk
      · exact Or.inr ⟨a, List.mem_append_left _ ha, hk⟩
      · exact Or.inr ⟨pieceOf g, List.mem_append_right _ (List.mem_singleton.mpr rfl), hk⟩
    · rintro (hk | ⟨a, ha, hk⟩)
      · exact Or.inl (Or.inl hk)
      · rcases List.mem_append.mp ha with ha | ha
        · exact Or.inl (Or.inr ⟨a, ha, hk⟩)
        · exact Or.inr (List.mem_singleton.mp ha ▸ hk)
  shown := fun p hp f hf => by
    rw [heff.entries p hp]
    rw [look_pieces_append] at hf
    split at hf
    · rename_i hc
      obtain rfl := Option.some.inj hf
      have hk : p - pageOf g.va < g.pages.toNat := by
        have h1 : pageOf g.va ≤ p := hc.1
        have h2 : p < pageOf g.va + g.pages.toNat := hc.2
        omega
      rw [if_pos hc, rangeEntry_frame flags hpool hc.1 hc.2, (hpool.frame hk).1]
      exact ⟨present_entryOf _ _, rfl⟩
    · rename_i hc
      rw [if_neg hc]
      exact h.shown p hp f hf
  other := fun p hp hf => by
    rw [heff.entries p hp]
    rw [look_pieces_append] at hf
    split at hf
    · contradiction
    · rename_i hc
      rw [if_neg hc]
      exact h.other p hp hf

theorem mem_pieces {a : Piece} : a ∈ pieces l ↔ ∃ g ∈ l, pieceOf g = a := List.mem_map

theorem Loaded.owned (h : Loaded m₀ m l) : Owned m (look (pieces l)) where
  wf := h.wf
  owned := fun p f hf => by
    obtain ⟨a, ha, hc, rfl⟩ := look_some hf
    obtain ⟨g, hg, rfl⟩ := mem_pieces.mp ha
    have himg := (h.image g hg).below
    have h1 : pageOf g.va ≤ p := hc.1
    have h2 : p < pageOf g.va + g.pages.toNat := hc.2
    have hp : p < 2 ^ 20 := by omega
    have hlt : (pieceOf g).at p < 1536 := ((h.pool g hg).frame (k := p - pageOf g.va) (by omega)).2
    exact ⟨hp, hlt, (h.slot (List.ne_nil_of_mem hg)).2,
      (h.alloc _).mpr (Or.inr ⟨_, ha, hc.holds_at⟩), h.shown p hp _ hf⟩
  inj := fun p q f hp hq => look_inj h.apart hp hq

theorem Loaded.unwind (h : Loaded m₀ m l) :
    Undone m (unwind m l) (look (pieces l)) (fun p => ∃ a ∈ pieces l, a.Covers p) := by
  have hstep : ∀ (todo done : List ElfSeg) (m' : Machine), l = done ++ todo →
      Undone m m' (look (pieces l)) (fun p => ∃ a ∈ pieces done, a.Covers p) →
      Undone m (todo.foldl (fun m g => unwindPages m g.va g.pages.toNat) m') (look (pieces l))
        (fun p => ∃ a ∈ pieces l, a.Covers p) := by
    intro todo
    induction todo with
    | nil =>
      intro done m' hl hu
      rw [List.append_nil] at hl
      exact hl ▸ hu
    | cons g todo ih =>
      intro done m' hl hu
      have hg : g ∈ l := hl ▸ List.mem_append_right _ List.mem_cons_self
      have hlook : ∀ p, pageOf g.va ≤ p → p < pageOf g.va + g.pages.toNat →
          ∃ f, look (pieces l) p = some f := fun p h1 h2 => by
        cases hp : look (pieces l) p with
        | some f => exact ⟨f, rfl⟩
        | none => exact absurd ⟨h1, h2⟩ (look_none.mp hp (pieceOf g) (mem_pieces.mpr ⟨g, hg, rfl⟩))
      refine ih (done ++ [g]) _ (by simpa using hl) ((unwindPages_spec h.owned (h.image g hg) hu
        hlook).congr fun p => ?_)
      rw [pieces_append]
      constructor
      · rintro ⟨a, ha, hc⟩
        rcases List.mem_append.mp ha with ha | ha
        · exact Or.inl ⟨a, ha, hc⟩
        · obtain rfl := List.mem_singleton.mp ha
          exact Or.inr hc
      · rintro (⟨a, ha, hc⟩ | hc)
        · exact ⟨a, List.mem_append_left _ ha, hc⟩
        · exact ⟨pieceOf g, List.mem_append_right _ (List.mem_singleton.mpr rfl), hc⟩
  exact hstep l [] m rfl (h.owned.undone_nil.congr fun p =>
    ⟨fun ⟨_, ha, _⟩ => (nomatch ha), False.elim⟩)

theorem Loaded.restored_iff (h : Loaded m₀ m l) (hwf : WF m₀.pg)
    (hun : ∀ a ∈ pieces l, ∀ p, a.Covers p → ¬ Present (pteAt m₀.pg p)) :
    Restored m₀ (Elf.unwind m l) ↔ (pieces l).Pairwise KeysApart := by
  have hu := h.unwind
  rw [← all_visible_iff h.apart]
  have hpool : ∀ a ∈ pieces l, ∀ k, a.Holds k → k < poolPages.toNat := by
    intro a ha k hk
    obtain ⟨g, hg, rfl⟩ := mem_pieces.mp ha
    have h1 : firstPage g.phys ≤ k := hk.1
    have h2 : k < firstPage g.phys + g.pages.toNat := hk.2
    have h3 := ((h.pool g hg).frame (k := k - firstPage g.phys) (by omega)).2
    rw [poolPages_toNat]
    omega
  have hqueries : ∀ virt, pagingQuery (Elf.unwind m l).pg virt = pagingQuery m₀.pg virt := by
    intro virt
    have hlt := pageOf_lt virt
    rw [pagingQuery_eq hu.wf, pagingQuery_eq hwf]
    cases hp : look (pieces l) (pageOf virt) with
    | none =>
      have hno : ¬ ∃ a ∈ pieces l, a.Covers (pageOf virt) := fun ⟨a, ha, hc⟩ =>
        look_none.mp hp a ha hc
      rw [hu.kept _ hlt hno, h.other _ hlt hp]
    | some f =>
      obtain ⟨a, ha, hc, _⟩ := look_some hp
      rw [hu.gone _ hlt ⟨a, ha, hc⟩, if_neg not_present_zero, if_neg (hun a ha _ hc)]
  constructor
  · intro hr a ha k hk
    by_contra hno
    have hfree := h.fresh a ha k hk
    apply hfree
    rw [← hr.allocated k (hpool a ha k hk), hu.alloc k]
    exact ⟨(h.alloc k).mpr (Or.inr ⟨a, ha, hk⟩), fun p _ hp => hno ⟨p, hp⟩⟩
  · intro hall
    have halloc : ∀ k, Allocated (Elf.unwind m l).pmm k ↔ Allocated m₀.pmm k := by
      intro k
      rw [hu.alloc k, h.alloc k]
      constructor
      · rintro ⟨hk | ⟨a, ha, hk⟩, hno⟩
        · exact hk
        · obtain ⟨p, hp⟩ := hall a ha k hk
          obtain ⟨b, hb, hc, _⟩ := look_some hp
          exact absurd hp (hno p ⟨b, hb, hc⟩)
      · intro hk
        refine ⟨Or.inl hk, fun p _ hp => ?_⟩
        obtain ⟨b, hb, hc, rfl⟩ := look_some hp
        exact h.fresh b hb _ hc.holds_at hk
    refine ⟨fun k _ => halloc k, hqueries, h.ext.trans hu.ext, ?_⟩
    intro virt frame flags hq k _ _ hk
    exact ⟨hqueries virt ▸ hq, fun hk' => hk ((halloc k).mpr hk')⟩

theorem Loaded.safe (hm : MachineOk m₀) (h : Loaded m₀ m l) {a : Nat} {k : Nat}
    (ha : a = 0xA00000 + k * 4096) (hk : k < 1536) (hfree : ¬ Allocated m₀.pmm k) : SafeFrame m.pg a := by
  have hsafe : SafeFrame m₀.pg a := by
    refine ⟨by omega, by omega, fun i hi hp => ?_⟩
    rw [ha]
    exact hm.tables i hi hp _ hk hfree
  exact hsafe.extends h.ext

theorem Loaded.segment (hm : MachineOk m₀) (hcan : CanMap m₀.pg) (h : Loaded m₀ m l) (buf : Mem)
    (hv : ValidSegment ph) {pmm : Pmm.State} (hpool : PoolPages phys (segPages ph).toNat)
    (hready : pmm.ready = true)
    (hfree : ∀ k, firstPage phys ≤ k → k < firstPage phys + (segPages ph).toNat → ¬ Allocated m.pmm k)
    (halloc : ∀ k, Allocated pmm k ↔ Allocated m.pmm k ∨
      (firstPage phys ≤ k ∧ k < firstPage phys + (segPages ph).toNat)) :
    ∃ pg₁ pg₂, mapPages m.pg (vaStart ph) phys pagingUsrFlags 0 (segPages ph).toNat = (true, pg₁) ∧
      fillSegment buf ph phys pg₁ = some pg₂ ∧ Placed buf ph phys m.pg pg₂ ∧
      Loaded m₀ { pmm := pmm, pg := pg₂ } (l ++ [⟨vaStart ph, segPages ph, phys⟩]) := by
  have himg := hv.image
  have hcan' : CanMap m.pg := by
    by_cases hl : l = []
    · exact h.start hl ▸ hcan
    · exact Or.inl (h.slot hl).1
  obtain ⟨pg₁, hmap, hslot, heff⟩ := mapPages_spec (k := 0) h.wf hcan' pagingUsrFlags
    (by simpa using himg) (by simpa using hpool)
  have hslot₁ := hslot hv.pages_pos
  have heff₁ : Effect m.pg pg₁ (fun p =>
      if InSegment ph p then rangeEntry (vaStart ph) phys pagingUsrFlags p else pteAt m.pg p) := heff
  have hframes : ∀ k < (segPages ph).toNat, SafeFrame pg₁ (phys.toNat + k * 4096) := by
    intro k hk
    obtain ⟨haddr, hlt⟩ := hpool.frame hk
    have hnot : ¬ Allocated m₀.pmm (firstPage phys + k) := fun ha =>
      hfree _ (Nat.le_add_right _ _) (by omega) ((h.alloc _).mpr (Or.inl ha))
    exact (h.safe hm haddr hlt hnot).extends heff₁.ext
  obtain ⟨pg₂, hfill, hplaced⟩ := fillSegment_spec buf hv heff₁.wf hslot₁ hpool hframes fun p hp => by
    have h2 : p < pageOf (vaStart ph) + (segPages ph).toNat := hp.2
    rw [heff₁.entries p (by have := himg.below; omega), if_pos hp]
  have hplaced' := Placed.of_mapped h.wf hmap heff₁ hplaced
  exact ⟨pg₁, pg₂, hmap, hfill, hplaced', Loaded.step (segFlags ph) ⟨vaStart ph, segPages ph, phys⟩ h
    (fun k hk => hfree k hk.1 hk.2) himg hpool hready (hplaced.effect.ext.keeps 1 (by omega) hslot₁).1
    halloc hplaced'.effect⟩

/-- A segment with its pages, as `elf_load` records it. -/
def segAt (ph : Phdr) (phys : U32) : ElfSeg := ⟨vaStart ph, segPages ph, phys⟩

def addSeg (img : ElfImage) (ph : Phdr) (phys : U32) : ElfImage :=
  { img with
    brk := nextBrk img.brk ph
    seg := img.seg ++ [segAt ph phys] }

structure SegmentLoaded (buf : Mem) (ph : Phdr) (phys : U32) (m m' : Machine) : Prop where
  alloc : pmmAllocPages m.pmm (segPages ph) = (phys, m'.pmm)
  got : phys ≠ 0
  pool : PoolPages phys (segPages ph).toNat
  fresh : ∀ k, firstPage phys ≤ k → k < firstPage phys + (segPages ph).toNat → ¬ Allocated m.pmm k
  placed : Placed buf ph phys m.pg m'.pg

theorem loadPhdrs_step (hm : MachineOk m₀) (hcan : CanMap m₀.pg) (buf : Mem) (phs : List Phdr)
    {img : ElfImage} (h : Loaded m₀ m img.seg) (hl : Loadable ph) (hv : ValidSegment ph)
    (hlen : img.seg.length < 8) :
    ((pmmAllocPages m.pmm (segPages ph)).1 = 0 ∧
      loadPhdrs buf (ph :: phs) img m = fail "out of physical pages" img m) ∨
    ∃ phys m', SegmentLoaded buf ph phys m m' ∧ Loaded m₀ m' (addSeg img ph phys).seg ∧
      loadPhdrs buf (ph :: phs) img m = loadPhdrs buf phs (addSeg img ph phys) m' := by
  have hmax : ¬ img.seg.length ≥ elfMaxSeg.toNat := Nat.not_le.mpr hlen
  have hskip : ¬ (ph.pType ≠ ptLoad ∨ ph.pMemsz = 0) := hl
  rw [loadPhdrs, if_neg hskip, if_neg hmax]
  rcases alloc_cases m.pmm (segPages ph) with heq | ⟨phys, pmm, heq, hne, hpool, hready, hfree, halloc⟩
  · rw [heq]
    exact Or.inl ⟨rfl, rfl⟩
  · obtain ⟨pg₁, pg₂, hmap, hfill, hplaced, hnext⟩ := h.segment hm hcan buf hv hpool hready hfree halloc
    right
    refine ⟨phys, ⟨pmm, pg₂⟩, ⟨heq, hne, hpool, hfree, hplaced⟩, hnext, ?_⟩
    simp only [heq, if_neg hne, hmap, hfill]
    rfl

def segKey (g : ElfSeg) : U32 × U32 := (g.va, g.pages)
def phdrKey (ph : Phdr) : U32 × U32 := (vaStart ph, segPages ph)

end Ezos.Elf
