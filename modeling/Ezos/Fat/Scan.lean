import Ezos.Fat.Slots
import Mathlib.Data.List.Forall2

/-!
# Reading a directory

What `fat_dir_foreach` passes on from blocks that hold items: their entries, in order, each with a name that
it can be shown under.
-/

namespace Ezos.Fat

open Lib.Memory

set_option autoImplicit false

variable {k : Kind} {blk : Mem} {i n m : Nat} {st : Lfn} {b : Block} {e : Mem} {ent : Entry} {name : Str} {ck : U8}
  {s : Short} {items : List Item} {v : Vol}

theorem scan_last (h : readSlot k (slotAt blk i) = .last) :
    scanSlots k b blk i st (n + 1) = ([], true, st) := by
  unfold scanSlots
  exact if_pos (last_of_read h)

theorem scan_gone (h : readSlot k (slotAt blk i) = .gone) :
    scanSlots k b blk i st (n + 1) = scanSlots k b blk (i + 1) (lfnReset st) n := by
  have hgone := gone_of_read h
  rw [scanSlots]
  dsimp only
  rw [hgone, if_neg (by decide), if_pos rfl]

theorem scan_long {seq : Nat} {chars : List U16} (h : readSlot k (slotAt blk i) = .long seq ck chars) :
    scanSlots k b blk i st (n + 1) =
      scanSlots k b blk (i + 1) (lfnPush { st with cksum := ck } (slotAt blk i)) n := by
  obtain ⟨huse, hlfn, -, hck, -⟩ := long_of_read h
  rw [scanSlots]
  dsimp only
  rw [if_neg huse.not_last, if_neg huse.not_gone, if_pos hlfn, hck]

def direntOf (e : Mem) (st : Lfn) (b : Block) (i : Nat) (s : Short) : Dirent :=
  { name := (lfnFor st e).getD (shortnameToStr e)
    firstCluster := s.first
    size := s.size
    isDir := s.isDir
    attr := e 11
    block := b
    slot := i
    lfnCount := if (lfnFor st e).isSome then st.blocks else 0 }

theorem scan_short (h : readSlot k (slotAt blk i) = .short s) :
    scanSlots k b blk i st (n + 1) =
      (direntOf (slotAt blk i) st b i s :: (scanSlots k b blk (i + 1) (lfnReset st) n).1,
        (scanSlots k b blk (i + 1) (lfnReset st) n).2) := by
  obtain ⟨huse, hlfn, -, hattr, hs⟩ := short_of_read h
  have hvol : ¬ slotAt blk i 11 &&& attrVolumeId ≠ 0 := by
    rcases hattr with ha | ha <;> rw [ha] <;> decide
  have hdir : decide (slotAt blk i 11 &&& attrDirectory ≠ 0) = s.isDir := by
    rw [hs]
    dsimp only
    rcases hattr with ha | ha <;> rw [ha] <;> decide
  have hde : direntFromShort k (slotAt blk i) st b i = some (direntOf (slotAt blk i) st b i s) := by
    unfold direntFromShort direntOf
    rw [if_neg hvol, hdir, hs]
  rw [scanSlots]
  dsimp only
  rw [if_neg huse.not_last, if_neg huse.not_gone, if_neg hlfn, hde]

structure Clear (st : Lfn) : Prop where
  len : st.len = 0
  expect : st.expect = none
  blocks : st.blocks = 0

theorem clear_lfnReset (st : Lfn) : Clear (lfnReset st) := ⟨rfl, rfl, rfl⟩

def spell (name : Str) (a : Nat) (chars : Junk) : Junk := fun pos =>
  if a ≤ pos ∧ pos < name.length then (name.getD pos 0).setWidth 16 else chars pos

/-- The parts of `name` down to number `m + 1` have been collected; before them `lfn_chars` held `chars`. -/
structure Collected (name : Str) (ck : U8) (chars : Junk) (m : Nat) (st : Lfn) : Prop where
  expect : st.expect = if m = lfnEntries name then none else some (m + 1)
  len : st.len = if m = lfnEntries name then 0 else 13 * lfnEntries name
  cksum : m ≠ lfnEntries name → st.cksum = ck
  chars : st.chars = spell name (13 * m) chars
  blocks : st.blocks = lfnEntries name - m

theorem length_le_lfnEntries : name.length ≤ 13 * lfnEntries name := by
  unfold lfnEntries
  omega

theorem lfnEntries_le (h : name.length ≤ 127) : lfnEntries name ≤ 10 := by
  unfold lfnEntries
  omega

theorem lfnEntries_pos (h : name ≠ []) : 0 < lfnEntries name := by
  have hpos := List.length_pos_iff.mpr h
  unfold lfnEntries
  omega

theorem Clear.collected (h : Clear st) : Collected name ck st.chars (lfnEntries name) st := by
  refine ⟨?_, ?_, fun hno => absurd rfl hno, funext fun pos => (if_neg ?_).symm, ?_⟩
  · rw [if_pos rfl]
    exact h.expect
  · rw [if_pos rfl]
    exact h.len
  · have hle := @length_le_lfnEntries name
    omega
  · rw [h.blocks, Nat.sub_self]

theorem setWidth_ne (c : U8) (h : c ≠ 0) : (c.setWidth 16 : U16) ≠ 0x0000 ∧ (c.setWidth 16 : U16) ≠ 0xFFFF := by
  revert c
  decide

theorem storeChars_spell (hlen : name.length ≤ 127) (hnul : ∀ c ∈ name, c ≠ 0) {chars : Junk}
    (hchars : (List.range 13).map (lfnChar e) = piece name (m + 1)) :
    storeChars e (13 * m) (spell name (13 * (m + 1)) chars) = spell name (13 * m) chars := by
  funext pos
  unfold storeChars
  by_cases hin : 13 * m ≤ pos ∧ pos < 13 * m + 13
  · have hunit : lfnChar e (pos - 13 * m) = lfnUnit name pos := by
      have hget := congrArg (fun l => l[pos - 13 * m]?) hchars
      dsimp only [piece] at hget
      rw [List.getElem?_map, List.getElem?_map, List.getElem?_range (by omega)] at hget
      have hpos : (m + 1 - 1) * 13 + (pos - 13 * m) = pos := by omega
      rw [Option.map_some, Option.map_some, hpos] at hget
      exact Option.some.inj hget
    have hlater : spell name (13 * (m + 1)) chars pos = chars pos := if_neg (by omega)
    rw [hunit, lfnUnit, hlater]
    by_cases hlt : pos < name.length
    · have hmem : name.getD pos 0 ∈ name := by
        rw [List.getD_eq_getElem?_getD, List.getElem?_eq_getElem hlt]
        exact List.getElem_mem hlt
      have hplain := setWidth_ne _ (hnul _ hmem)
      rw [if_pos hlt, if_pos ⟨hin.1, hin.2, by omega, hplain.1, hplain.2⟩]
      exact (if_pos ⟨hin.1, hlt⟩).symm
    · have hkeep : spell name (13 * m) chars pos = chars pos := if_neg fun hno => hlt hno.2
      rw [if_neg hlt, hkeep]
      by_cases heq : pos = name.length
      · rw [if_pos heq, if_neg fun hno => hno.2.2.2.1 rfl]
      · rw [if_neg heq, if_neg fun hno => hno.2.2.2.2 rfl]
  · rw [if_neg fun hno => hin ⟨hno.1, hno.2.1⟩]
    unfold spell
    by_cases hlt : pos < name.length
    · by_cases hhi : 13 * (m + 1) ≤ pos
      · rw [if_pos ⟨hhi, hlt⟩, if_pos ⟨by omega, hlt⟩]
      · rw [if_neg fun hno => hhi hno.1, if_neg fun hno => hin ⟨hno.1, by omega⟩]
    · rw [if_neg fun hno => hlt hno.2, if_neg fun hno => hlt hno.2]

theorem Collected.push {chars : Junk} (h : Collected name ck chars (m + 1) st) (hlen : name.length ≤ 127)
    (hnul : ∀ c ∈ name, c ≠ 0) (hm : m + 1 ≤ lfnEntries name)
    (hr : readSlot k e = .long (m + 1) ck (piece name (m + 1))) :
    Collected name ck chars m (lfnPush { st with cksum := ck } e) := by
  obtain ⟨-, -, hseq, -, hchars⟩ := long_of_read hr
  have hten := lfnEntries_le hlen
  have hexpect : ¬ (st.expect ≠ none ∧ st.expect ≠ some (m + 1 + 1)) := by
    rw [h.expect]
    split <;> simp
  have hne : m ≠ lfnEntries name := by omega
  have hblocks := h.blocks
  unfold lfnPush
  dsimp only
  rw [hseq, if_neg (by omega), if_neg hexpect]
  refine ⟨?_, ?_, fun _ => rfl, ?_, ?_⟩
  · rw [if_neg hne]
  · rw [if_neg hne]
    dsimp only
    rw [h.len]
    split <;> split <;> omega
  · have hbase : (m + 1 - 1) * 13 = 13 * m := by omega
    dsimp only
    rw [hbase, h.chars]
    exact storeChars_spell hlen hnul hchars
  · dsimp only
    rw [hblocks, if_pos (by omega)]
    omega

theorem scan_longSlots {chars : Junk} (h : Collected name ck chars m st) (hlen : name.length ≤ 127)
    (hnul : ∀ c ∈ name, c ≠ 0) (hm : m ≤ lfnEntries name) (hr : Reads k blk i (longSlots name ck m)) :
    ∃ st', Collected name ck chars 0 st' ∧ scanSlots k b blk i st (m + n) = scanSlots k b blk (i + m) st' n := by
  induction m generalizing i st with
  | zero => exact ⟨st, h, by rw [Nat.zero_add, Nat.add_zero]⟩
  | succ m ih =>
    obtain ⟨st', hst', hrun⟩ := ih (h.push hlen hnul hm hr.head) (Nat.le_of_succ_le hm) hr.tail
    refine ⟨st', hst', ?_⟩
    rw [Nat.succ_add, Nat.succ_eq_add_one, scan_long hr.head, hrun]
    congr 1
    omega

theorem lfnName_eq {chars : Nat → U16} (hnul : ∀ c ∈ name, c ≠ 0)
    (h : ∀ pos, pos < name.length → chars (i + pos) = (name.getD pos 0).setWidth 16) :
    lfnName chars i (name.length + n) = shown name ++ lfnName chars (i + name.length) n := by
  induction name generalizing i with
  | nil => rw [List.length_nil, Nat.zero_add, Nat.add_zero]; rfl
  | cons c name ih =>
    have h0 : chars i = c.setWidth 16 := h 0 (Nat.succ_pos _)
    have hne := (setWidth_ne c (hnul c List.mem_cons_self)).1
    have hnext := @ih (i + 1) (fun d hd => hnul d (List.mem_cons_of_mem c hd)) fun pos hpos => by
      have hp := h (pos + 1) (Nat.succ_lt_succ hpos)
      have hplace : i + (pos + 1) = i + 1 + pos := by omega
      rw [hplace] at hp
      exact hp
    rw [List.length_cons, Nat.succ_add, Nat.succ_eq_add_one, lfnName, h0, if_neg hne, hnext]
    refine congrArg (_ :: ·) ?_
    congr 2
    omega

/-- The name shown for a long name, when `lfn_chars` held `chars` in front of it. -/
def longShown (chars : Junk) (name : Str) : Str := lfnName (spell name 0 chars) 0 (13 * lfnEntries name)

theorem longShown_eq (hnul : ∀ c ∈ name, c ≠ 0) (chars : Junk) :
    longShown chars name = shown name ++ lfnName (spell name 0 chars) name.length (13 * lfnEntries name - name.length) := by
  have hle := @length_le_lfnEntries name
  have hlen : 13 * lfnEntries name = name.length + (13 * lfnEntries name - name.length) := by omega
  have hname := @lfnName_eq 0 (13 * lfnEntries name - name.length) name (spell name 0 chars) hnul fun pos hp => by
    rw [Nat.zero_add]
    exact if_pos ⟨Nat.zero_le pos, hp⟩
  rw [← hlen, Nat.zero_add] at hname
  exact hname

theorem Collected.lfnFor {chars : Junk} (h : Collected name ck chars 0 st) (hne : name ≠ []) (hlen : name.length ≤ 127)
    (hnul : ∀ c ∈ name, c ≠ 0) (hck : ck = lfnChecksum e) : lfnFor st e = some (longShown chars name) := by
  have hpos := lfnEntries_pos hne
  have hten := lfnEntries_le hlen
  have hzero : 0 ≠ lfnEntries name := Nat.ne_of_lt hpos
  have hstlen := h.len
  have hexp := h.expect
  have hchars := h.chars
  rw [if_neg hzero] at hstlen hexp
  rw [Nat.mul_zero] at hchars
  have hmin : min st.len 255 = 13 * lfnEntries name := by omega
  unfold Fat.lfnFor
  rw [if_pos ⟨by omega, hexp, (h.cksum hzero).trans hck⟩, hmin, hchars]
  rw [← longShown]
  rw [longShown_eq hnul]
  cases name with
  | nil => contradiction
  | cons c name => rfl

/-! ## Items -/

theorem lfnFor_of_clear (h : Clear st) : lfnFor st e = none := by
  unfold lfnFor
  rw [if_neg fun hno => absurd h.len (Nat.ne_of_gt hno.1)]

theorem length_longSlots : (longSlots name ck m).length = m := by
  induction m with
  | zero => rfl
  | succ m ih => rw [longSlots, List.length_cons, ih]

theorem lead_of_plain (h : ent.long = none) : ent.lead = [] := by
  unfold Entry.lead
  rw [h]

theorem lead_of_long (h : ent.long = some name) :
    ent.lead = longSlots name (lfnChecksum (memOf ent.short.sn)) (lfnEntries name) := by
  unfold Entry.lead
  rw [h]

theorem length_slots : ent.slots.length = ent.lead.length + 1 := List.length_append

/-- What an entry leaves in `lfn_chars`, and the name that it is shown under. -/
def Entry.leaves (e : Entry) (chars : Junk) : Junk :=
  match e.long with
  | none => chars
  | some l => spell l 0 chars

def Entry.shownWith (e : Entry) (chars : Junk) : Str :=
  match e.long with
  | none => e.short.text
  | some l => longShown chars l

/-- The entry of slot `i` in block `b` is passed on as `d` when `lfn_chars` holds `chars`. -/
structure Lists (chars : Junk) (p : Block × Nat × Entry) (d : Dirent) : Prop where
  block : d.block = p.1
  slot : d.slot = p.2.1
  firstCluster : d.firstCluster = p.2.2.short.first
  size : d.size = p.2.2.short.size
  isDir : d.isDir = p.2.2.short.isDir
  name : d.name = p.2.2.shownWith chars
  lfnCount : d.lfnCount = p.2.2.lead.length

/-- One entry after the other is passed on; `lfn_chars` ends with the last argument. -/
inductive Listed : Junk → List (Block × Nat × Entry) → List Dirent → Junk → Prop
  | nil {chars : Junk} : Listed chars [] [] chars
  | cons {chars last : Junk} {p : Block × Nat × Entry} {d : Dirent} {ps : List (Block × Nat × Entry)} {ds : List Dirent} :
      Lists chars p d → Listed (p.2.2.leaves chars) ps ds last → Listed chars (p :: ps) (d :: ds) last

theorem Entry.shownAs_shownWith (hok : ent.Ok) (chars : Junk) : ent.ShownAs (ent.shownWith chars) := by
  unfold Entry.ShownAs Entry.shownWith
  cases hlong : ent.long with
  | none => rfl
  | some l =>
    refine ⟨_, longShown_eq (hok.long l hlong).2.2 chars, fun hmod => ?_⟩
    have hfull : 13 * lfnEntries l - l.length = 0 := by
      unfold lfnEntries
      omega
    rw [hfull]
    rfl

theorem Lists.shows {chars : Junk} {p : Block × Nat × Entry} {d : Dirent} (h : Lists chars p d) (hok : p.2.2.Ok) :
    Shows p d := by
  refine ⟨h.block, h.slot, h.firstCluster, h.size, h.isDir, ?_⟩
  rw [h.name]
  exact Entry.shownAs_shownWith hok chars

theorem Listed.append {chars mid last : Junk} {ps ps' : List (Block × Nat × Entry)} {ds ds' : List Dirent}
    (h : Listed chars ps ds mid) (h' : Listed mid ps' ds' last) : Listed chars (ps ++ ps') (ds ++ ds') last := by
  induction h with
  | nil => exact h'
  | cons hd _ ih => exact .cons hd (ih h')

theorem Listed.shows {chars last : Junk} {ps : List (Block × Nat × Entry)} {ds : List Dirent} (h : Listed chars ps ds last)
    (hok : ∀ p ∈ ps, p.2.2.Ok) : List.Forall₂ Shows ps ds := by
  induction h with
  | nil => exact .nil
  | cons hd _ ih => exact .cons (hd.shows (hok _ List.mem_cons_self)) (ih fun p hp => hok p (List.mem_cons_of_mem _ hp))

theorem scan_entry (hok : ent.Ok) (hr : Reads k blk i ent.slots) (hst : Clear st) :
    ∃ d st', Lists st.chars (b, i + ent.lead.length, ent) d ∧ Clear st' ∧ st'.chars = ent.leaves st.chars ∧
      scanSlots k b blk i st (ent.slots.length + n) =
        (d :: (scanSlots k b blk (i + ent.slots.length) st' n).1,
          (scanSlots k b blk (i + ent.slots.length) st' n).2) := by
  have hshort : readSlot k (slotAt blk (i + ent.lead.length)) = .short ent.short := hr.right.head
  obtain ⟨-, -, hnt, -, hs⟩ := short_of_read hshort
  have hsn : ent.short.sn = (List.range 11).map (slotAt blk (i + ent.lead.length)) := congrArg Short.sn hs
  have hplace : i + ent.slots.length = i + ent.lead.length + 1 := by rw [length_slots]; rfl
  have hcount : ent.slots.length + n = ent.lead.length + (n + 1) := by rw [length_slots]; omega
  -- the state in front of the short entry, and the name that goes with it
  obtain ⟨st1, hrun, hchars, hname, hblocks⟩ : ∃ st1, scanSlots k b blk i st (ent.lead.length + (n + 1)) =
      scanSlots k b blk (i + ent.lead.length) st1 (n + 1) ∧ st1.chars = ent.leaves st.chars ∧
      (lfnFor st1 (slotAt blk (i + ent.lead.length))).getD (shortnameToStr (slotAt blk (i + ent.lead.length))) =
        ent.shownWith st.chars ∧
      (if (lfnFor st1 (slotAt blk (i + ent.lead.length))).isSome then st1.blocks else 0) = ent.lead.length := by
    unfold Entry.shownWith Entry.leaves
    cases hlong : ent.long with
    | none =>
      have hlead := lead_of_plain hlong
      refine ⟨st, by rw [hlead, List.length_nil, Nat.zero_add]; rfl, rfl, ?_, ?_⟩
      · have hbytes := hok.sn_bytes
        rw [hsn] at hbytes
        rw [lfnFor_of_clear hst, Option.getD_none, shortnameToStr_eq hnt hbytes, Short.text, hsn]
      · rw [lfnFor_of_clear hst, hlead]
        rfl
    | some name =>
      have hlead := lead_of_long hlong
      obtain ⟨hne, hlen, hnul⟩ := hok.long name hlong
      have hreads : Reads k blk i (longSlots name (lfnChecksum (memOf ent.short.sn)) (lfnEntries name)) :=
        hlead ▸ hr.left
      obtain ⟨st1, hst1, hrun⟩ := @scan_longSlots k blk i (n + 1) _ st b name _ _ hst.collected hlen hnul
        (Nat.le_refl _) hreads
      have hck : lfnChecksum (memOf ent.short.sn) = lfnChecksum (slotAt blk (i + ent.lead.length)) := by
        rw [hsn]
        exact lfnChecksum_congr fun j hj => memOf_range _ hj
      have hfor := hst1.lfnFor hne hlen hnul hck
      refine ⟨st1, ?_, ?_, ?_, ?_⟩
      · rw [hlead, length_longSlots]
        exact hrun
      · rw [hst1.chars, Nat.mul_zero]
      · rw [hfor, Option.getD_some]
      · rw [hfor, Option.isSome_some, if_pos rfl, hst1.blocks, hlead, length_longSlots, Nat.sub_zero]
  refine ⟨direntOf (slotAt blk (i + ent.lead.length)) st1 b (i + ent.lead.length) ent.short, lfnReset st1,
    ⟨rfl, rfl, rfl, rfl, rfl, hname, hblocks⟩, clear_lfnReset st1, hchars, ?_⟩
  rw [hcount, hrun, scan_short hshort, hplace]

theorem scan_items (hok : ∀ ent, some ent ∈ items → ent.Ok) (hr : Reads k blk i (items.flatMap itemSlots))
    (hst : Clear st) :
    ∃ des st', Listed st.chars (placed b i items) des st'.chars ∧ Clear st' ∧
      scanSlots k b blk i st ((items.flatMap itemSlots).length + n) =
        (des ++ (scanSlots k b blk (i + (items.flatMap itemSlots).length) st' n).1,
          (scanSlots k b blk (i + (items.flatMap itemSlots).length) st' n).2) := by
  induction items generalizing i st with
  | nil =>
    refine ⟨[], st, .nil, hst, ?_⟩
    rw [List.flatMap_nil, List.length_nil, Nat.zero_add, Nat.add_zero]
    rfl
  | cons x items ih =>
    have hok' : ∀ ent, some ent ∈ items → ent.Ok := fun ent hent => hok ent (List.mem_cons_of_mem x hent)
    rw [List.flatMap_cons] at hr ⊢
    cases x with
    | none =>
      obtain ⟨des, st', hdes, hst', hrun⟩ := ih hok' hr.right (clear_lfnReset st)
      have hcount : (itemSlots none ++ items.flatMap itemSlots).length + n =
          (items.flatMap itemSlots).length + n + 1 := by
        rw [List.length_append]
        unfold itemSlots
        rw [List.length_singleton]
        omega
      have hend : i + (itemSlots none ++ items.flatMap itemSlots).length =
          i + (itemSlots none).length + (items.flatMap itemSlots).length := by
        rw [List.length_append, Nat.add_assoc]
      refine ⟨des, st', hdes, hst', ?_⟩
      rw [hcount, hend, scan_gone hr.left.head]
      exact hrun
    | some ent =>
      have hent : Reads k blk i ent.slots := hr.left
      obtain ⟨d, st1, hd, hst1, hchars, hrun1⟩ := @scan_entry k blk i ((items.flatMap itemSlots).length + n) st b ent
        (hok ent List.mem_cons_self) hent hst
      obtain ⟨des, st', hdes, hst', hrun⟩ := ih hok' hr.right hst1
      have hcount : (itemSlots (some ent) ++ items.flatMap itemSlots).length + n =
          ent.slots.length + ((items.flatMap itemSlots).length + n) := by
        rw [List.length_append, Nat.add_assoc]
        rfl
      have hend : i + (itemSlots (some ent) ++ items.flatMap itemSlots).length =
          i + ent.slots.length + (items.flatMap itemSlots).length := by
        rw [List.length_append, Nat.add_assoc]
        rfl
      rw [hchars] at hdes
      refine ⟨d :: des, st', .cons hd hdes, hst', ?_⟩
      rw [hcount, hend, hrun1]
      have hrun' : scanSlots k b blk (i + ent.slots.length) st1 ((items.flatMap itemSlots).length + n) = _ := hrun
      rw [hrun']
      rfl

structure View where
  block : Block
  items : List Item
  free : Nat

def View.slots (w : View) : List Slot := w.items.flatMap itemSlots ++ List.replicate w.free .last

structure View.Of (v : Vol) (w : View) : Prop where
  reads : Reads v.kind (blockAt v w.block) 0 w.slots
  length : w.slots.length = slotsOf v w.block
  ok : ∀ ent, some ent ∈ w.items → ent.Ok

def View.placed (w : View) : List (Block × Nat × Entry) := Fat.placed w.block 0 w.items

def Tidy (ws : List View) : Prop := ws.Pairwise fun w w' => 0 < w.free → w'.items = []

theorem scan_view {w : View} (h : w.Of v) (hst : Clear st) :
    ∃ des st', Listed st.chars w.placed des st'.chars ∧
      scanSlots v.kind w.block (blockAt v w.block) 0 st (slotsOf v w.block) = (des, decide (0 < w.free), st') := by
  have hlen := h.length
  unfold View.slots at hlen
  rw [List.length_append, List.length_replicate] at hlen
  obtain ⟨des, st', hdes, -, hrun⟩ := @scan_items v.kind (blockAt v w.block) 0 w.free st w.block w.items h.ok
    h.reads.left hst
  rw [hlen] at hrun
  cases hfree : w.free with
  | zero =>
    rw [hfree] at hrun
    refine ⟨des, st', hdes, hrun.trans ?_⟩
    rw [scanSlots, List.append_nil]
    rfl
  | succ f =>
    have hlast : readSlot v.kind (slotAt (blockAt v w.block) (0 + (w.items.flatMap itemSlots).length)) = .last := by
      have hr := h.reads
      unfold View.slots at hr
      rw [hfree] at hr
      exact hr.right.head
    rw [hfree] at hrun
    refine ⟨des, st', hdes, hrun.trans ?_⟩
    rw [scan_last hlast, List.append_nil]
    rfl

theorem placed_gap {j : Nat} (items : List Item) (h : items = []) : placed b j items = [] := by rw [h]; rfl

theorem scan_views (hread : ∀ b, v.unreadable b = false) {ws : List View} (hws : ∀ w ∈ ws, w.Of v)
    (htidy : Tidy ws) :
    ∃ des last, Listed st.chars (ws.flatMap View.placed) des last ∧
      scanBlocks v st (ws.map View.block) = (des, false) := by
  induction ws generalizing st with
  | nil => exact ⟨[], st.chars, .nil, rfl⟩
  | cons w ws ih =>
    obtain ⟨htw, htws⟩ := List.pairwise_cons.mp htidy
    obtain ⟨des, st', hdes, hrun⟩ := scan_view (hws w List.mem_cons_self) (clear_lfnReset st)
    rw [List.map_cons, scanBlocks, fatReadBlock, hread, if_neg Bool.false_ne_true]
    dsimp only
    rw [hrun, List.flatMap_cons]
    by_cases hfree : 0 < w.free
    · have hrest : ws.flatMap View.placed = [] := by
        rw [List.flatMap_eq_nil_iff]
        exact fun w' hw' => placed_gap w'.items (htw w' hw' hfree)
      rw [decide_eq_true hfree, hrest, List.append_nil]
      exact ⟨des, st'.chars, hdes, rfl⟩
    · obtain ⟨des', last, hdes', hrun'⟩ := @ih st' (fun w' hw' => hws w' (List.mem_cons_of_mem w hw')) htws
      rw [decide_eq_false hfree]
      dsimp only
      rw [hrun']
      exact ⟨des ++ des', last, hdes.append hdes', rfl⟩

end Ezos.Fat
