import Ezos.Types
import Ezos.Lib.Checked
import Ezos.Lib.Ring
import Ezos.Lib.LongestSuffix

/-!
# The kernel log (`kernel/dmesg.c`)

A ring of bytes and a ring of lines that says where in it each line lies. A character is put into the line that is being
collected, and a newline puts that line into the ring. `seq` only grows; it counts modulo `2 ^ 64` in the source, a multiple of
the size of the ring. Writers run with interrupts off, so a call is one step.
-/

namespace Ezos.Log

open Lib

set_option autoImplicit false

def dmBufSize : Nat := 32768
def dmMaxLines : Nat := 256
def dmMaxLine : Nat := 240

def newline : U8 := 0x0A

structure DmLine where
  start : Nat
  len : Nat
  tick : U32
  deriving DecidableEq

structure Dmesg where
  buf : Nat → U8
  seq : Nat
  line : Nat → DmLine
  /-- The oldest line, the number of lines and of their bytes (`dm_first`, `dm_cnt`, `dm_bytes`). -/
  first : Nat
  cnt : Nat
  bytes : Nat
  /-- The line that is being collected (`dm_cur`). -/
  cur : List U8
  serial : List U8

def Dmesg.boot : Dmesg where
  buf := fun _ => 0
  seq := 0
  line := fun _ => ⟨0, 0, 0⟩
  first := 0
  cnt := 0
  bytes := 0
  cur := []
  serial := []

def dmDrop (d : Dmesg) : Dmesg :=
  { d with bytes := d.bytes - (d.line d.first).len, first := (d.first + 1) % dmMaxLines, cnt := d.cnt - 1 }

def dmMakeRoom (need : Nat) : Nat → Dmesg → Dmesg
  | 0, d => d
  | n + 1, d => if 0 < d.cnt ∧ dmBufSize < d.bytes + need then dmMakeRoom need n (dmDrop d) else d

def dmPushLine (tick : U32) (d : Dmesg) : Dmesg :=
  let need := d.cur.length + 1
  if dmBufSize < need then { d with cur := [] } else
  let d := dmMakeRoom need d.cnt d
  let d := if d.cnt = dmMaxLines then dmDrop d else d
  let slot := (d.first + d.cnt) % dmMaxLines
  { d with
    line := Ring.put d.line slot ⟨d.seq, need, tick⟩
    buf := Ring.putAll d.buf dmBufSize d.seq (d.cur ++ [newline])
    seq := d.seq + need
    cnt := d.cnt + 1
    bytes := d.bytes + need
    cur := [] }

def dmPutChar (tick : U32) (d : Dmesg) (c : U8) : Dmesg :=
  if c = newline then dmPushLine tick d
  else if d.cur.length < dmMaxLine then { d with cur := d.cur ++ [c] }
  else d

def echoed (line : List U8) : List U8 := if line.getLast? = some newline then line else line ++ [newline]

def dmesgPush (line : List U8) (echoSerial : Bool) (tick : U32) (d : Dmesg) : Dmesg :=
  let d := if echoSerial then { d with serial := d.serial ++ echoed line } else d
  line.foldl (dmPutChar tick) d

def dmesgWrite (line : List U8) (tick : U32) (d : Dmesg) : Dmesg := dmesgPush line true tick d
def dmesgRecord (line : List U8) (tick : U32) (d : Dmesg) : Dmesg := dmesgPush line false tick d

def dmCopyLine (d : Dmesg) (idx cap : Nat) : List U8 :=
  let l := d.line idx
  Ring.contents d.buf dmBufSize l.start (l.start + min l.len cap)

def dmLineTick (d : Dmesg) (idx : Nat) : U32 := (d.line idx).tick

/-- `dm_snapshot`: the oldest line, the first one that is asked for, and the number of lines. -/
def dmSnapshot (d : Dmesg) (n : Int) : Nat × Nat × Nat :=
  (d.first, if 0 < n ∧ n < d.cnt then d.cnt - n.toNat else 0, d.cnt)

def secDigits : Nat → Nat → List U8
  | 0, _ => []
  | n + 1, sec => if sec = 0 then [] else BitVec.ofNat 8 (0x30 + sec % 10) :: secDigits n (sec / 10)

def stampSecs (tick : U32) : List U8 :=
  let sec := tick.toNat / 1000
  (if sec = 0 then [0x30] else secDigits 12 sec).reverse

def stampOpen (tick : U32) : List U8 := [0x5B, 0x20] ++ List.replicate (4 - (stampSecs tick).length) 0x20

def stampClose (tick : U32) : List U8 :=
  let usec := tick.toNat % 1000 * 1000
  [0x2E] ++ [100000, 10000, 1000, 100, 10, 1].map (fun d => BitVec.ofNat 8 (0x30 + usec / d % 10)) ++ [0x5D, 0x20]

def dmTsPut (tick : U32) : List U8 := stampOpen tick ++ stampSecs tick ++ stampClose tick

def unstamped (row : List U8) : Bool := row.isEmpty || row.head? != some 0x5B

structure Shown where
  stamp : List U8
  row : List U8
  deriving DecidableEq

def Shown.chars (s : Shown) : List U8 := s.stamp ++ s.row

structure Call where
  text : List U8
  ended : Bool
  echo : Bool
  tick : U32
  deriving DecidableEq

def Call.line (c : Call) : List U8 := if c.ended then c.text ++ [newline] else c.text

def Call.run (d : Dmesg) (c : Call) : Dmesg :=
  if c.echo then dmesgWrite c.line c.tick d else dmesgRecord c.line c.tick d

def logged (d : Dmesg) (cs : List Call) : Dmesg := cs.foldl Call.run d

structure Meanwhile where
  copy : Nat → List Call
  stamp : Nat → List Call

def quiet : Meanwhile := ⟨fun _ => [], fun _ => []⟩

/-- The loop of `dmesg_dump` over `n` lines from line `i` on. -/
def dumpFrom (w : Meanwhile) (first : Nat) : Nat → Nat → Dmesg → List Shown
  | 0, _, _ => []
  | n + 1, i, d =>
    let d := logged d (w.copy i)
    let idx := (first + i) % dmMaxLines
    let row := dmCopyLine d idx (dmMaxLine + 1)
    if unstamped row then
      let d := logged d (w.stamp i)
      ⟨dmTsPut (dmLineTick d idx), row⟩ :: dumpFrom w first n (i + 1) d
    else ⟨[], row⟩ :: dumpFrom w first n (i + 1) d

/-- `dmesg_dump`: the lines it puts out; it returns their number. -/
def dmesgDump (w : Meanwhile) (d : Dmesg) (n : Int) : List Shown :=
  let (first, start, cnt) := dmSnapshot d n
  if cnt = 0 then [] else dumpFrom w first (cnt - start) start d

def putIn (lim : Nat) (out : List U8) (c : U8) : List U8 := if out.length + 1 < lim then out ++ [c] else out

def digitTurn (lim : Nat) (s : List U8 × List U8) : Prog (Turn (List U8 × List U8) (List U8)) :=
  match s.2 with
  | [] => pure (.leave s.1)
  | c :: cs => if s.1.length + 1 < lim then pure (.again (s.1 ++ [c], cs)) else pure (.again (s.1, c :: cs))

def dmTsBuf (out : List U8) (lim : Nat) (tick : U32) : Prog (List U8) := do
  let out := (stampOpen tick).foldl (putIn lim) out
  let out ← Checked.loop (digitTurn lim) ((stampSecs tick).length + 1) (out, stampSecs tick)
  pure ((stampClose tick).foldl (putIn lim) out)

/-- The loop of `dmesg_tail` over `n` lines from line `i` on. -/
def tailFrom (d : Dmesg) (first outsz : Nat) : Nat → Nat → List U8 → Prog (List U8)
  | 0, _, out => pure out
  | n + 1, i, out =>
    if ¬ out.length + 1 < outsz then pure out else do
    let idx := (first + i) % dmMaxLines
    let row := dmCopyLine d idx (dmMaxLine + 1)
    let out ← if unstamped row then dmTsBuf out outsz (dmLineTick d idx) else pure out
    tailFrom d first outsz n (i + 1) (row.foldl (putIn outsz) out)

/-- `dmesg_tail`: the bytes before the zero; it returns their number. -/
def dmesgTail (d : Dmesg) (outsz : Nat) (n : Int) : Prog (List U8) :=
  let (first, start, cnt) := dmSnapshot d n
  if outsz = 0 ∨ cnt = 0 then pure [] else tailFrom d first outsz (cnt - start) start []

def dmesgLines (d : Dmesg) : Nat := d.cnt

end Ezos.Log

/-!
# What the kernel log holds

The bytes before `seq` are those of the lines that are kept, and the slots from `first` on say where each begins. A call whose
line ends with a newline keeps this, and drops no line that the limits leave room for.
-/

namespace Ezos.Log

open Lib

structure Row where
  text : List U8
  tick : U32
  deriving DecidableEq

def Row.chars (r : Row) : List U8 := r.text ++ [newline]

def flat (rows : List Row) : List U8 := rows.flatMap Row.chars

def size (rows : List Row) : Nat := (flat rows).length

def Fits (rows : List Row) : Prop := rows.length ≤ dmMaxLines ∧ size rows ≤ dmBufSize

def slots : Nat → List Row → List DmLine
  | _, [] => []
  | s, r :: rs => ⟨s, r.text.length + 1, r.tick⟩ :: slots (s + (r.text.length + 1)) rs

structure Holds (d : Dmesg) (rows : List Row) : Prop where
  count : d.cnt = rows.length
  bytes : d.bytes = size rows
  first_lt : d.first < dmMaxLines
  fits : Fits rows
  written : size rows ≤ d.seq
  short : ∀ r ∈ rows, r.text.length ≤ dmMaxLine
  index : Ring.contents d.line dmMaxLines d.first (d.first + d.cnt) = slots (d.seq - size rows) rows
  content : Ring.contents d.buf dmBufSize (d.seq - size rows) d.seq = flat rows

variable {d : Dmesg} {r : Row} {rows : List Row} {tick : U32} {s i n need : Nat}

theorem length_chars (r : Row) : r.chars.length = r.text.length + 1 := by
  rw [Row.chars, List.length_append, List.length_singleton]

theorem flat_cons (r : Row) (rows : List Row) : flat (r :: rows) = r.chars ++ flat rows := List.flatMap_cons

theorem flat_append (rows rows' : List Row) : flat (rows ++ rows') = flat rows ++ flat rows' := List.flatMap_append

theorem size_cons (r : Row) (rows : List Row) : size (r :: rows) = r.text.length + 1 + size rows := by
  rw [size, flat_cons, List.length_append, length_chars, size]

theorem size_append (rows rows' : List Row) : size (rows ++ rows') = size rows + size rows' := by
  rw [size, flat_append, List.length_append, size, size]

theorem flat_singleton (r : Row) : flat [r] = r.chars := List.flatMap_singleton Row.chars r

theorem size_singleton (r : Row) : size [r] = r.text.length + 1 := by
  rw [size, flat_singleton, length_chars]

theorem slots_append (s : Nat) (rows rows' : List Row) :
    slots s (rows ++ rows') = slots s rows ++ slots (s + size rows) rows' := by
  induction rows generalizing s with
  | nil => rfl
  | cons r rows ih =>
    rw [List.cons_append, slots, slots, ih, List.cons_append, size_cons, Nat.add_assoc s]

theorem size_sublist {rows rows' : List Row} (h : rows'.Sublist rows) : size rows' ≤ size rows := by
  induction h with
  | slnil => exact Nat.le_refl _
  | cons r _ ih =>
    rw [size_cons]
    omega
  | cons_cons r _ ih =>
    rw [size_cons, size_cons]
    omega

theorem Fits.sublist {rows rows' : List Row} (h : rows'.Sublist rows) (hf : Fits rows) : Fits rows' :=
  ⟨Nat.le_trans h.length_le hf.1, Nat.le_trans (size_sublist h) hf.2⟩

theorem holds_boot : Holds .boot [] where
  count := rfl
  bytes := rfl
  first_lt := by decide
  fits := ⟨Nat.zero_le _, Nat.zero_le _⟩
  written := Nat.le_refl 0
  short := fun _ hr => absurd hr List.not_mem_nil
  index := rfl
  content := rfl

/-! ## Lines dropped and lines put -/

theorem Holds.drop (h : Holds d (r :: rows)) : Holds (dmDrop d) rows := by
  have hcount := h.count
  have hbytes := h.bytes
  have hwritten := h.written
  have hindex := h.index
  have hcontent := h.content
  rw [List.length_cons] at hcount
  rw [size_cons] at hbytes hwritten
  rw [slots, Ring.contents_eq_cons (by omega), Nat.mod_eq_of_lt h.first_lt] at hindex
  obtain ⟨hslot, hslots⟩ := List.cons.inj hindex
  have hlen : (d.line d.first).len = r.text.length + 1 := by rw [hslot]
  have hstart : d.seq - size (r :: rows) + (r.text.length + 1) = d.seq - size rows := by
    rw [size_cons]
    omega
  refine ⟨?_, ?_, Nat.mod_lt _ (by decide), h.fits.sublist (List.sublist_cons_self r rows), ?_,
    fun q hq => h.short q (List.mem_cons_of_mem r hq), ?_, ?_⟩
  · exact Nat.sub_eq_of_eq_add hcount
  · change d.bytes - (d.line d.first).len = size rows
    rw [hlen, hbytes, Nat.add_sub_cancel_left]
  · exact Nat.le_trans (Nat.le_add_left _ _) hwritten
  · have hcnt : d.first + 1 + (d.cnt - 1) = d.first + d.cnt := by omega
    rw [hstart] at hslots
    change Ring.contents d.line dmMaxLines ((d.first + 1) % dmMaxLines) ((d.first + 1) % dmMaxLines + (d.cnt - 1)) = _
    rw [Ring.contents_mod, hcnt]
    exact hslots
  · have hsplit : Ring.contents d.buf dmBufSize (d.seq - size (r :: rows)) d.seq =
        Ring.contents d.buf dmBufSize (d.seq - size (r :: rows)) (d.seq - size rows) ++
          Ring.contents d.buf dmBufSize (d.seq - size rows) d.seq :=
      Ring.contents_append _ (by omega) (Nat.sub_le _ _)
    rw [hcontent, flat_cons] at hsplit
    have hleft : r.chars.length = (Ring.contents d.buf dmBufSize (d.seq - size (r :: rows)) (d.seq - size rows)).length := by
      rw [Ring.length_contents, length_chars]
      omega
    exact (List.append_inj hsplit hleft).2.symm

theorem Holds.makeRoom (h : Holds d rows) (need : Nat) (hn : rows.length ≤ n) :
    ∃ k, Holds (dmMakeRoom need n d) (rows.drop k) ∧ (∀ i < k, dmBufSize < size (rows.drop i) + need) ∧
      (rows.drop k = [] ∨ size (rows.drop k) + need ≤ dmBufSize) := by
  induction n generalizing d rows with
  | zero =>
    have hnil : rows = [] := List.length_eq_zero_iff.mp (Nat.le_zero.mp hn)
    exact ⟨0, h, fun i hi => absurd hi (Nat.not_lt_zero i), .inl hnil⟩
  | succ n ih =>
    rw [dmMakeRoom]
    by_cases hfull : 0 < d.cnt ∧ dmBufSize < d.bytes + need
    · rw [if_pos hfull]
      cases rows with
      | nil =>
        rw [h.count] at hfull
        exact absurd hfull.1 (Nat.lt_irrefl 0)
      | cons r rows =>
        obtain ⟨k, hk, hbefore, hafter⟩ := ih h.drop (Nat.le_of_succ_le_succ hn)
        refine ⟨k + 1, hk, ?_, hafter⟩
        intro i hi
        cases i with
        | zero =>
          rw [List.drop_zero, ← h.bytes]
          exact hfull.2
        | succ i => exact hbefore i (Nat.lt_of_succ_lt_succ hi)
    · rw [if_neg hfull]
      refine ⟨0, h, fun i hi => absurd hi (Nat.not_lt_zero i), ?_⟩
      rw [List.drop_zero]
      by_cases hempty : rows = []
      · exact .inl hempty
      · have hpos := List.length_pos_iff.mpr hempty
        rw [← h.count] at hpos
        rw [← h.bytes]
        exact .inr (Nat.le_of_not_lt fun hlt => hfull ⟨hpos, hlt⟩)

theorem cur_dmMakeRoom (need n : Nat) (d : Dmesg) : (dmMakeRoom need n d).cur = d.cur := by
  induction n generalizing d with
  | zero => rfl
  | succ n ih =>
    rw [dmMakeRoom]
    split
    · exact ih (dmDrop d)
    · rfl

def dmAppend (tick : U32) (d : Dmesg) : Dmesg :=
  { d with
    line := Ring.put d.line ((d.first + d.cnt) % dmMaxLines) ⟨d.seq, d.cur.length + 1, tick⟩
    buf := Ring.putAll d.buf dmBufSize d.seq (d.cur ++ [newline])
    seq := d.seq + (d.cur.length + 1)
    cnt := d.cnt + 1
    bytes := d.bytes + (d.cur.length + 1)
    cur := [] }

theorem Holds.append (h : Holds d rows) (tick : U32) (hroom : rows.length < dmMaxLines)
    (hbytes : size rows + (d.cur.length + 1) ≤ dmBufSize) (hcur : d.cur.length ≤ dmMaxLine) : Holds (dmAppend tick d) (rows ++ [⟨d.cur, tick⟩]) := by
  have hsize : size (rows ++ [⟨d.cur, tick⟩]) = size rows + (d.cur.length + 1) := by rw [size_append, size_singleton]
  have hwritten := h.written
  have hstart : d.seq + (d.cur.length + 1) - size (rows ++ [⟨d.cur, tick⟩]) = d.seq - size rows := by
    rw [hsize]
    omega
  refine ⟨?_, ?_, h.first_lt, ⟨?_, ?_⟩, ?_, ?_, ?_, ?_⟩
  · rw [List.length_append, List.length_singleton, ← h.count]
    rfl
  · rw [hsize, ← h.bytes]
    rfl
  · rw [List.length_append, List.length_singleton]
    exact hroom
  · rw [hsize]
    exact hbytes
  · rw [hsize]
    exact Nat.add_le_add_right hwritten _
  · intro r hr
    rcases List.mem_append.mp hr with hr | hr
    · exact h.short r hr
    · rw [List.mem_singleton.mp hr]
      exact hcur
  · change Ring.contents _ dmMaxLines d.first (d.first + (d.cnt + 1)) = slots (d.seq + (d.cur.length + 1) - _) _
    rw [hstart, slots_append, ← Nat.add_assoc, dmAppend]
    dsimp only
    rw [Ring.contents_push (Nat.le_add_right _ _) (by rw [Nat.add_sub_cancel_left, h.count]; exact hroom), h.index,
      Nat.sub_add_cancel hwritten]
    rfl
  · change Ring.contents (Ring.putAll d.buf dmBufSize d.seq (d.cur ++ [newline])) dmBufSize
      (d.seq + (d.cur.length + 1) - _) (d.seq + (d.cur.length + 1)) = _
    have hlen : (d.cur ++ [newline]).length = d.cur.length + 1 := by rw [List.length_append, List.length_singleton]
    rw [hstart, ← hlen, Ring.contents_putAll (Nat.sub_le _ _) (by rw [hlen]; omega), h.content, flat_append, flat_singleton]
    rfl

theorem dmPushLine_eq (hcur : d.cur.length ≤ dmMaxLine) : dmPushLine tick d =
    dmAppend tick (if (dmMakeRoom (d.cur.length + 1) d.cnt d).cnt = dmMaxLines
      then dmDrop (dmMakeRoom (d.cur.length + 1) d.cnt d) else dmMakeRoom (d.cur.length + 1) d.cnt d) := by
  have hroom := cur_dmMakeRoom (d.cur.length + 1) d.cnt d
  have hshort : ¬ dmBufSize < d.cur.length + 1 := by
    have hlt : dmMaxLine + 1 < dmBufSize := by decide
    omega
  rw [dmPushLine]
  dsimp only
  rw [if_neg hshort, dmAppend]
  split
  · rw [show (dmDrop (dmMakeRoom (d.cur.length + 1) d.cnt d)).cur = d.cur from hroom]
  · rw [hroom]

theorem Holds.push (h : Holds d rows) (tick : U32) (hcur : d.cur.length ≤ dmMaxLine) :
    ∃ rows', Holds (dmPushLine tick d) rows' ∧ LongestSuffix Fits (rows ++ [⟨d.cur, tick⟩]) rows' := by
  have hneed : d.cur.length + 1 ≤ dmBufSize := by
    have hlt : dmMaxLine + 1 < dmBufSize := by decide
    omega
  have hcnt := h.count
  obtain ⟨k, hk, hbefore, hafter⟩ := h.makeRoom (d.cur.length + 1) (n := d.cnt) (by omega)
  have hroomk : size (rows.drop k) + (d.cur.length + 1) ≤ dmBufSize := by
    rcases hafter with hnil | hle
    · rw [hnil]
      exact (Nat.zero_add _).symm ▸ hneed
    · exact hle
  have hcurk := cur_dmMakeRoom (d.cur.length + 1) d.cnt d
  have hbig : ∀ i < k, i ≤ rows.length → ¬ Fits (List.drop i (rows ++ [⟨d.cur, tick⟩])) := by
    intro i hi hle hfits
    have hsize := hfits.2
    rw [List.drop_append_of_le_length hle, size_append, size_singleton] at hsize
    exact absurd hsize (Nat.not_le_of_lt (hbefore i hi))
  -- past the end of the lines there is nothing to drop
  obtain ⟨k, hkle, hk, hbig, hroomk⟩ : ∃ k ≤ rows.length, Holds (dmMakeRoom (d.cur.length + 1) d.cnt d) (rows.drop k) ∧
      (∀ i < k, ¬ Fits (List.drop i (rows ++ [⟨d.cur, tick⟩]))) ∧ size (rows.drop k) + (d.cur.length + 1) ≤ dmBufSize := by
    by_cases hkle : k ≤ rows.length
    · exact ⟨k, hkle, hk, fun i hi => hbig i hi (by omega), hroomk⟩
    · have hdrop : rows.drop k = rows.drop rows.length := by
        rw [List.drop_of_length_le (by omega), List.drop_length]
      rw [hdrop] at hk hroomk
      exact ⟨rows.length, Nat.le_refl _, hk, fun i hi => hbig i (by omega) (by omega), hroomk⟩
  rw [dmPushLine_eq hcur]
  have hlenk := hk.fits.1
  by_cases hfull : (dmMakeRoom (d.cur.length + 1) d.cnt d).cnt = dmMaxLines
  · rw [if_pos hfull]
    have hlen : (rows.drop k).length = dmMaxLines := hk.count.symm.trans hfull
    have hpos : k < rows.length := by
      rw [List.length_drop] at hlen
      have h256 : 0 < dmMaxLines := by decide
      omega
    rw [List.drop_eq_getElem_cons hpos] at hk hlen hroomk
    rw [size_cons] at hroomk
    have hdrop := hk.drop
    have hadd := hdrop.append tick (by rw [← hlen]; exact Nat.lt_succ_self _)
      (by rw [show (dmDrop (dmMakeRoom (d.cur.length + 1) d.cnt d)).cur = d.cur from hcurk]; omega)
      (by rw [show (dmDrop (dmMakeRoom (d.cur.length + 1) d.cnt d)).cur = d.cur from hcurk]; exact hcur)
    rw [show (dmDrop (dmMakeRoom (d.cur.length + 1) d.cnt d)).cur = d.cur from hcurk,
      ← List.drop_append_of_le_length hpos] at hadd
    refine ⟨_, hadd, LongestSuffix.of_drop hadd.fits ?_⟩
    intro i hi
    by_cases hik : i < k
    · exact hbig i hik
    · obtain rfl : i = k := by omega
      intro hfits
      have hlong := hfits.1
      rw [List.drop_append_of_le_length hkle, List.length_append, List.drop_eq_getElem_cons hpos, hlen] at hlong
      exact absurd hlong (Nat.not_succ_le_self _)
  · rw [if_neg hfull]
    have hne : (rows.drop k).length ≠ dmMaxLines := fun he => hfull (hk.count.trans he)
    have hadd := hk.append tick (by omega) (by rw [hcurk]; exact hroomk) (by rw [hcurk]; exact hcur)
    rw [hcurk, ← List.drop_append_of_le_length hkle] at hadd
    exact ⟨_, hadd, LongestSuffix.of_drop hadd.fits hbig⟩

def Call.OneLine (c : Call) : Prop := ∀ b ∈ c.text, b ≠ newline ∧ b ≠ 0

instance (c : Call) : Decidable c.OneLine := inferInstanceAs (Decidable (∀ b ∈ c.text, _))

def Call.row (c : Call) : Row := ⟨c.text.take dmMaxLine, c.tick⟩

structure Settled (d : Dmesg) (rows : List Row) : Prop where
  holds : Holds d rows
  cur : d.cur = []

theorem Holds.frame (h : Holds d rows) (cur serial : List U8) : Holds { d with cur := cur, serial := serial } rows :=
  ⟨h.count, h.bytes, h.first_lt, h.fits, h.written, h.short, h.index, h.content⟩

theorem foldl_dmPutChar {text : List U8} (htext : ∀ b ∈ text, b ≠ newline ∧ b ≠ 0) (d : Dmesg)
    (hcur : d.cur.length ≤ dmMaxLine) :
    text.foldl (dmPutChar tick) d = { d with cur := (d.cur ++ text).take dmMaxLine } := by
  induction text generalizing d with
  | nil =>
    rw [List.append_nil, List.take_of_length_le hcur]
    rfl
  | cons b text ih =>
    have hrest := fun c hc => htext c (List.mem_cons_of_mem b hc)
    rw [List.foldl_cons, dmPutChar, if_neg (htext b List.mem_cons_self).1]
    by_cases hlt : d.cur.length < dmMaxLine
    · rw [if_pos hlt, ih hrest _ (by rw [List.length_append, List.length_singleton]; exact hlt), List.append_assoc]
      rfl
    · rw [if_neg hlt, ih hrest d hcur, List.take_append_of_le_length (by omega), List.take_append_of_le_length (by omega)]

theorem Settled.call {c : Call} (h : Settled d rows) (hone : c.OneLine) (hended : c.ended = true) :
    ∃ rows', Settled (c.run d) rows' ∧ LongestSuffix Fits (rows ++ [c.row]) rows' := by
  obtain ⟨serial, hrun⟩ : ∃ serial, c.run d = dmPushLine c.tick { d with cur := c.text.take dmMaxLine, serial := serial } := by
    have hline : c.line = c.text ++ [newline] := by rw [Call.line, if_pos hended]
    have hpush : ∀ serial, c.line.foldl (dmPutChar c.tick) { d with serial := serial }
        = dmPushLine c.tick { d with cur := c.text.take dmMaxLine, serial := serial } := by
      intro serial
      rw [hline, List.foldl_append, foldl_dmPutChar hone _ (by rw [h.cur]; exact Nat.zero_le _), List.foldl_cons,
        List.foldl_nil, dmPutChar, if_pos rfl, h.cur, List.nil_append]
    by_cases hecho : c.echo = true
    · exact ⟨d.serial ++ echoed c.line, by rw [Call.run, if_pos hecho]; exact hpush _⟩
    · exact ⟨d.serial, by rw [Call.run, if_neg hecho]; exact hpush _⟩
  have hlen : (c.text.take dmMaxLine).length ≤ dmMaxLine := List.length_take_le _ _
  obtain ⟨rows', hrows, hlong⟩ := (h.holds.frame (c.text.take dmMaxLine) serial).push c.tick hlen
  rw [hrun]
  refine ⟨rows', ⟨hrows, ?_⟩, hlong⟩
  rw [dmPushLine_eq hlen]
  rfl

theorem Settled.logged {cs : List Call} {all : List Row} (h : Settled d rows) (hlong : LongestSuffix Fits all rows)
    (hone : ∀ c ∈ cs, c.OneLine) (hended : ∀ c ∈ cs, c.ended = true) :
    ∃ rows', Settled (logged d cs) rows' ∧ LongestSuffix Fits (all ++ cs.map Call.row) rows' := by
  induction cs generalizing d rows all with
  | nil =>
    refine ⟨rows, h, ?_⟩
    rw [List.map_nil, List.append_nil]
    exact hlong
  | cons c cs ih =>
    obtain ⟨rows', hrows, hnext⟩ := h.call (hone c List.mem_cons_self) (hended c List.mem_cons_self)
    obtain ⟨rows'', hrows', hall⟩ := ih hrows (hlong.snoc (fun hs hf => Fits.sublist hs hf) hnext)
      (fun b hb => hone b (List.mem_cons_of_mem c hb)) (fun b hb => hended b (List.mem_cons_of_mem c hb))
    rw [List.append_assoc] at hall
    exact ⟨rows'', hrows', hall⟩

theorem getElem?_slots (s : Nat) (rows : List Row) (i : Nat) :
    (slots s rows)[i]? = rows[i]?.map fun r => ⟨s + size (rows.take i), r.text.length + 1, r.tick⟩ := by
  induction rows generalizing s i with
  | nil => rfl
  | cons r rows ih =>
    cases i with
    | zero => rfl
    | succ i => rw [slots, List.getElem?_cons_succ, List.getElem?_cons_succ, ih, List.take_succ_cons, size_cons, Nat.add_assoc s]

theorem Holds.slot (h : Holds d rows) (hi : rows[i]? = some r) :
    d.line ((d.first + i) % dmMaxLines) = ⟨d.seq - size rows + size (rows.take i), r.text.length + 1, r.tick⟩ := by
  have hlt : i < rows.length := (List.getElem?_eq_some_iff.mp hi).1
  have hindex := congrArg (fun l => l[i]?) h.index
  have hcnt := h.count
  simp only [getElem?_slots, hi, Ring.contents, List.getElem?_map, Nat.add_sub_cancel_left, hcnt,
    List.getElem?_range hlt, Option.map_some] at hindex
  exact Option.some.inj hindex

theorem Holds.copyLine (h : Holds d rows) (hi : rows[i]? = some r) :
    dmCopyLine d ((d.first + i) % dmMaxLines) (dmMaxLine + 1) = r.chars := by
  obtain ⟨hlt, hget⟩ := List.getElem?_eq_some_iff.mp hi
  have hshort : r.text.length ≤ dmMaxLine := h.short r (hget ▸ List.getElem_mem hlt)
  have hsplit : rows = rows.take i ++ r :: rows.drop (i + 1) := by
    rw [← hget, ← List.drop_eq_getElem_cons hlt, List.take_append_drop]
  have hflat : flat rows = flat (rows.take i) ++ (r.chars ++ flat (rows.drop (i + 1))) := by
    rw [← flat_cons, ← flat_append, ← hsplit]
  have hmid := Ring.contents_mid (h.content.trans hflat)
  rw [length_chars] at hmid
  rw [dmCopyLine, h.slot hi]
  dsimp only
  rw [Nat.min_eq_left (by omega)]
  exact hmid

def Row.shown (r : Row) : Shown := ⟨if unstamped r.chars then dmTsPut r.tick else [], r.chars⟩

def asked (n : Int) (kept : Nat) : Nat := if 0 < n ∧ n < kept then n.toNat else kept

def lastRows (n : Int) (rows : List Row) : List Row := rows.drop (rows.length - asked n rows.length)

theorem Holds.snapshot (h : Holds d rows) (n : Int) :
    dmSnapshot d n = (d.first, rows.length - asked n rows.length, rows.length) := by
  rw [dmSnapshot, h.count, asked]
  split
  · rfl
  · rw [Nat.sub_self]

theorem Holds.dumpFrom_quiet (h : Holds d rows) (hi : i + n = rows.length) :
    dumpFrom quiet d.first n i d = (rows.drop i).map Row.shown := by
  induction n generalizing i with
  | zero =>
    rw [List.drop_of_length_le (by omega)]
    rfl
  | succ n ih =>
    have hlt : i < rows.length := by omega
    have hrow := h.copyLine (List.getElem?_eq_getElem hlt)
    have htick : dmLineTick d ((d.first + i) % dmMaxLines) = rows[i].tick := by
      rw [dmLineTick, h.slot (List.getElem?_eq_getElem hlt)]
    have hquiet : logged d (quiet.copy i) = d := rfl
    have hquiet' : logged d (quiet.stamp i) = d := rfl
    rw [dumpFrom, hquiet, hquiet', hrow]
    dsimp only
    rw [htick, ih (by omega), List.drop_eq_getElem_cons hlt, List.map_cons, Row.shown]
    split <;> rfl

theorem Holds.dump_quiet (h : Holds d rows) (n : Int) : dmesgDump quiet d n = (lastRows n rows).map Row.shown := by
  have hle : rows.length - asked n rows.length ≤ rows.length := Nat.sub_le _ _
  rw [dmesgDump, h.snapshot]
  dsimp only
  by_cases hnone : rows.length = 0
  · have hnil : rows = [] := List.length_eq_zero_iff.mp hnone
    rw [if_pos hnone, lastRows, hnil, List.drop_nil, List.map_nil]
  · rw [if_neg hnone, lastRows]
    exact h.dumpFrom_quiet (by omega)

def Live (d : Dmesg) (idx : Nat) : Prop := ∃ i < d.cnt, idx = (d.first + i) % dmMaxLines

def LiveFrom (w : Meanwhile) (first : Nat) : Nat → Nat → Dmesg → Prop
  | 0, _, _ => True
  | n + 1, i, d =>
    let d := logged d (w.copy i)
    let idx := (first + i) % dmMaxLines
    Live d idx ∧ LiveFrom w first n (i + 1) (if unstamped (dmCopyLine d idx (dmMaxLine + 1)) then logged d (w.stamp i) else d)

def DumpLive (w : Meanwhile) (d : Dmesg) (n : Int) : Prop :=
  let (first, start, cnt) := dmSnapshot d n
  LiveFrom w first (cnt - start) start d

def Meanwhile.Calls (w : Meanwhile) (c : Call) : Prop := ∃ i, c ∈ w.copy i ∨ c ∈ w.stamp i

theorem dumpFrom_live {w : Meanwhile} {first : Nat} {all : List Row} {Q : Row → Prop}
    (hone : ∀ c, w.Calls c → c.OneLine) (hended : ∀ c, w.Calls c → c.ended = true)
    (hQ : ∀ c, w.Calls c → Q c.row) (hall : ∀ r ∈ all, Q r) (h : Settled d rows) (hlong : LongestSuffix Fits all rows)
    (hlive : LiveFrom w first n i d) : ∀ s ∈ dumpFrom w first n i d, ∃ r, Q r ∧ s.row = r.chars := by
  induction n generalizing i d rows all with
  | zero => exact fun s hs => absurd hs List.not_mem_nil
  | succ n ih =>
    have hcopy : ∀ c ∈ w.copy i, w.Calls c := fun c hc => ⟨i, .inl hc⟩
    have hstamp : ∀ c ∈ w.stamp i, w.Calls c := fun c hc => ⟨i, .inr hc⟩
    have hmap : ∀ cs : List Call, (∀ c ∈ cs, w.Calls c) → ∀ all : List Row, (∀ r ∈ all, Q r) → ∀ r ∈ all ++ cs.map Call.row, Q r := by
      intro cs hcs all hall r hr
      rcases List.mem_append.mp hr with hr | hr
      · exact hall r hr
      · obtain ⟨c, hc, rfl⟩ := List.mem_map.mp hr
        exact hQ c (hcs c hc)
    obtain ⟨rows1, h1, hlong1⟩ := h.logged hlong (fun c hc => hone c (hcopy c hc)) fun c hc => hended c (hcopy c hc)
    have hall1 := hmap _ hcopy all hall
    obtain ⟨⟨j, hj, hidx⟩, hnext⟩ := hlive
    rw [h1.holds.count] at hj
    have hrow := h1.holds.copyLine (List.getElem?_eq_getElem hj)
    rw [← hidx] at hrow
    have hQj : Q rows1[j] := hall1 _ (hlong1.suffix.subset (List.getElem_mem hj))
    have hmain : ∀ (d' : Dmesg) (all' : List Row) (rows' : List Row), (∀ r ∈ all', Q r) → Settled d' rows' →
        LongestSuffix Fits all' rows' → LiveFrom w first n (i + 1) d' → ∀ stamp, ∀ s ∈
        (⟨stamp, dmCopyLine (Log.logged d (w.copy i)) ((first + i) % dmMaxLines) (dmMaxLine + 1)⟩ : Shown) ::
          dumpFrom w first n (i + 1) d', ∃ r, Q r ∧ s.row = r.chars := by
      intro d' all' rows' hall' h' hlong' hlive' stamp s hs
      rcases List.mem_cons.mp hs with rfl | hs
      · exact ⟨rows1[j], hQj, hrow⟩
      · exact ih hall' h' hlong' hlive' s hs
    rw [dumpFrom]
    dsimp only
    by_cases hun : unstamped (dmCopyLine (Log.logged d (w.copy i)) ((first + i) % dmMaxLines) (dmMaxLine + 1)) = true
    · rw [if_pos hun] at hnext ⊢
      obtain ⟨rows2, h2, hlong2⟩ := h1.logged hlong1 (fun c hc => hone c (hstamp c hc)) fun c hc => hended c (hstamp c hc)
      exact hmain _ _ _ (hmap _ hstamp _ hall1) h2 hlong2 hnext _
    · rw [if_neg hun] at hnext ⊢
      exact hmain _ _ _ hall1 h1 hlong1 hnext _

/-! ## Into a buffer -/

variable {lim : Nat} {out cs ds : List U8}

theorem foldl_putIn (h : out.length < lim) : cs.foldl (putIn lim) out = (out ++ cs).take (lim - 1) := by
  induction cs generalizing out with
  | nil =>
    rw [List.append_nil, List.take_of_length_le (by omega)]
    rfl
  | cons c cs ih =>
    rw [List.foldl_cons, putIn]
    by_cases hroom : out.length + 1 < lim
    · rw [if_pos hroom, ih (by rw [List.length_append, List.length_singleton]; exact hroom), List.append_assoc]
      rfl
    · rw [if_neg hroom, ih h, List.take_append_of_le_length (by omega), List.take_append_of_le_length (by omega)]

theorem loop_digits (h : out.length + ds.length < lim) (hn : ds.length < n) :
    Checked.loop (digitTurn lim) n (out, ds) = .ok (out ++ ds) := by
  induction ds generalizing out n with
  | nil =>
    obtain ⟨n, rfl⟩ : ∃ k, n = k + 1 := ⟨n - 1, by omega⟩
    rw [List.append_nil]
    rfl
  | cons c ds ih =>
    obtain ⟨n, rfl⟩ : ∃ k, n = k + 1 := ⟨n - 1, by omega⟩
    rw [List.length_cons] at h hn
    have hturn : digitTurn lim (out, c :: ds) = .ok (.again (out ++ [c], ds)) := if_pos (by dsimp only; omega)
    rw [Checked.loop, hturn, Checked.ok_bind]
    have hrest : Checked.loop (digitTurn lim) n (out ++ [c], ds) = .ok (out ++ [c] ++ ds) :=
      ih (by rw [List.length_append, List.length_singleton]; omega) (by omega)
    rw [List.append_assoc] at hrest
    exact hrest

theorem loop_digits_spins (h : lim ≤ out.length + ds.length) (hout : out.length < lim) (n : Nat) :
    Checked.loop (digitTurn lim) n (out, ds) = .error .spinning := by
  induction n generalizing out ds with
  | zero => rfl
  | succ n ih =>
    cases ds with
    | nil =>
      rw [List.length_nil] at h
      omega
    | cons c ds =>
      rw [List.length_cons] at h
      by_cases hroom : out.length + 1 < lim
      · have hturn : digitTurn lim (out, c :: ds) = .ok (.again (out ++ [c], ds)) := if_pos hroom
        rw [Checked.loop, hturn, Checked.ok_bind]
        refine ih ?_ ?_
        · rw [List.length_append, List.length_singleton]
          omega
        · rw [List.length_append, List.length_singleton]
          exact hroom
      · have hturn : digitTurn lim (out, c :: ds) = .ok (.again (out, c :: ds)) := if_neg hroom
        rw [Checked.loop, hturn, Checked.ok_bind]
        exact ih (by rw [List.length_cons]; exact h) hout

theorem stampSecs_pos (tick : U32) : 0 < (stampSecs tick).length := by
  rw [stampSecs, List.length_reverse]
  split
  · exact Nat.one_pos
  · rename_i hsec
    rw [secDigits, if_neg hsec]
    exact Nat.succ_pos _

theorem dmTsBuf_eq (hroom : out.length + (stampOpen tick).length + (stampSecs tick).length < lim) :
    dmTsBuf out lim tick = .ok ((out ++ dmTsPut tick).take (lim - 1)) := by
  have hopen : (stampOpen tick).foldl (putIn lim) out = out ++ stampOpen tick := by
    rw [foldl_putIn (by omega), List.take_of_length_le (by rw [List.length_append]; omega)]
  rw [dmTsBuf]
  rw [hopen, loop_digits (by rw [List.length_append]; omega) (Nat.lt_succ_self _), Checked.ok_bind, foldl_putIn (by
    rw [List.length_append, List.length_append]
    omega), dmTsPut, List.append_assoc, List.append_assoc, List.append_assoc]
  rfl

theorem dmTsBuf_spins (hout : out.length < lim)
    (hroom : lim ≤ out.length + (stampOpen tick).length + (stampSecs tick).length) :
    dmTsBuf out lim tick = .error .spinning := by
  have hpos := stampSecs_pos tick
  rw [dmTsBuf]
  rw [foldl_putIn hout, loop_digits_spins]
  · rfl
  · rw [List.length_take, List.length_append]
    omega
  · rw [List.length_take]
    omega

def StampsFit (outsz : Nat) : Nat → List Row → Prop
  | _, [] => True
  | p, r :: rs =>
    (p + 1 < outsz → unstamped r.chars = true → p + (stampOpen r.tick).length + (stampSecs r.tick).length < outsz) ∧
      StampsFit outsz (p + r.shown.chars.length) rs

def shownChars (rows : List Row) : List U8 := rows.flatMap fun r => r.shown.chars

theorem stampsFit_of_full {outsz p : Nat} (h : outsz ≤ p + 1) : StampsFit outsz p rows := by
  induction rows generalizing p with
  | nil => trivial
  | cons r rows ih => exact ⟨fun hlt => absurd hlt (Nat.not_lt_of_le h), ih (by omega)⟩

theorem take_take_append (T row : List U8) (k : Nat) : (T.take k ++ row).take k = (T ++ row).take k := by
  by_cases hk : T.length ≤ k
  · rw [List.take_of_length_le hk]
  · rw [List.take_append_of_le_length (by rw [List.length_take]; omega), List.take_append_of_le_length (by omega),
      List.take_take, Nat.min_self]

theorem Holds.tailFrom (h : Holds d rows) {outsz : Nat} (hpos : 0 < outsz) (T : List U8) (hi : i + n = rows.length) :
    (StampsFit outsz T.length (rows.drop i) → Log.tailFrom d d.first outsz n i (T.take (outsz - 1))
      = .ok ((T ++ shownChars (rows.drop i)).take (outsz - 1))) ∧
    (¬ StampsFit outsz T.length (rows.drop i) →
      Log.tailFrom d d.first outsz n i (T.take (outsz - 1)) = .error .spinning) := by
  induction n generalizing i T with
  | zero =>
    rw [List.drop_of_length_le (by omega), shownChars, List.flatMap_nil, List.append_nil]
    exact ⟨fun _ => rfl, fun hno => absurd trivial hno⟩
  | succ n ih =>
    by_cases hfull : outsz ≤ T.length + 1
    · refine ⟨fun _ => ?_, fun hno => absurd (stampsFit_of_full hfull) hno⟩
      have hstop : ¬ (T.take (outsz - 1)).length + 1 < outsz := by
        rw [List.length_take]
        omega
      rw [Log.tailFrom, if_pos hstop, List.take_append_of_le_length (by omega)]
      rfl
    · have hlt : i < rows.length := by omega
      have hrow := h.copyLine (List.getElem?_eq_getElem hlt)
      have htick : dmLineTick d ((d.first + i) % dmMaxLines) = rows[i].tick := by
        rw [dmLineTick, h.slot (List.getElem?_eq_getElem hlt)]
      have hT : T.take (outsz - 1) = T := List.take_of_length_le (by omega)
      have hgo : ¬ ¬ T.length + 1 < outsz := by omega
      rw [List.drop_eq_getElem_cons hlt, StampsFit, shownChars, List.flatMap_cons, ← shownChars, hT, Log.tailFrom, if_neg hgo]
      dsimp only
      rw [hrow, htick]
      have hchars : rows[i].shown.chars = (if unstamped rows[i].chars = true then dmTsPut rows[i].tick else []) ++ rows[i].chars := rfl
      have hnext := ih (T ++ rows[i].shown.chars) (i := i + 1) (by omega)
      rw [List.length_append] at hnext
      by_cases hun : unstamped rows[i].chars = true
      · rw [if_pos hun] at hchars ⊢
        by_cases hroom : T.length + (stampOpen rows[i].tick).length + (stampSecs rows[i].tick).length < outsz
        · have hstep : rows[i].chars.foldl (putIn outsz) ((T ++ dmTsPut rows[i].tick).take (outsz - 1))
              = (T ++ rows[i].shown.chars).take (outsz - 1) := by
            rw [foldl_putIn (by rw [List.length_take]; omega), take_take_append, hchars, List.append_assoc]
          rw [dmTsBuf_eq hroom, Checked.ok_bind, hstep, ← List.append_assoc]
          exact ⟨fun hfit => hnext.1 hfit.2, fun hno => hnext.2 fun hfit => hno ⟨fun _ _ => hroom, hfit⟩⟩
        · rw [dmTsBuf_spins (by omega) (by omega)]
          exact ⟨fun hfit => absurd (hfit.1 (by omega) hun) hroom, fun _ => rfl⟩
      · rw [if_neg hun] at hchars ⊢
        have hstep : rows[i].chars.foldl (putIn outsz) T = (T ++ rows[i].shown.chars).take (outsz - 1) := by
          rw [foldl_putIn (by omega), hchars, List.nil_append]
        rw [show (pure T : Prog (List U8)) = .ok T from rfl, Checked.ok_bind, hstep, ← List.append_assoc]
        exact ⟨fun hfit => hnext.1 hfit.2, fun hno => hnext.2 fun hfit => hno ⟨fun _ hu => absurd hu hun, hfit⟩⟩

theorem Holds.tail (h : Holds d rows) {outsz : Nat} (hpos : 0 < outsz) (n : Int) :
    (StampsFit outsz 0 (lastRows n rows) →
      dmesgTail d outsz n = .ok ((shownChars (lastRows n rows)).take (outsz - 1))) ∧
    (¬ StampsFit outsz 0 (lastRows n rows) → dmesgTail d outsz n = .error .spinning) := by
  have hle : rows.length - asked n rows.length ≤ rows.length := Nat.sub_le _ _
  rw [dmesgTail, h.snapshot]
  dsimp only
  by_cases hnone : rows.length = 0
  · have hnil : rows = [] := List.length_eq_zero_iff.mp hnone
    rw [if_pos (.inr hnone), lastRows, hnil, List.drop_nil]
    refine ⟨fun _ => ?_, fun hno => absurd trivial hno⟩
    rw [shownChars, List.flatMap_nil, List.take_nil]
    rfl
  · have hrun := h.tailFrom hpos [] (i := rows.length - asked n rows.length)
      (n := rows.length - (rows.length - asked n rows.length)) (by omega)
    rw [List.take_nil, List.nil_append] at hrun
    rw [if_neg (by omega), lastRows]
    exact hrun

/-- After any calls that end their lines the log holds the longest part of them that the limits allow. A dump and a tail show the
last of it; a tail ends when the seconds of its stamps have room. A dump that further calls run into shows whole lines as long as
the slots it comes to are in use. -/
theorem dmesg_keeps_lines (cs : List Call) (hone : ∀ c ∈ cs, c.OneLine) (hended : ∀ c ∈ cs, c.ended = true) :
    ∃ kept, LongestSuffix Fits (cs.map Call.row) kept ∧ dmesgLines (logged .boot cs) = kept.length ∧
      (∀ n, dmesgDump quiet (logged .boot cs) n = (lastRows n kept).map Row.shown) ∧
      (∀ outsz n, 0 < outsz →
        (StampsFit outsz 0 (lastRows n kept) →
          dmesgTail (logged .boot cs) outsz n = .ok ((shownChars (lastRows n kept)).take (outsz - 1))) ∧
        (¬ StampsFit outsz 0 (lastRows n kept) → dmesgTail (logged .boot cs) outsz n = .error .spinning)) ∧
      ∀ (w : Meanwhile) n, (∀ c, w.Calls c → c.OneLine ∧ c.ended = true) → DumpLive w (logged .boot cs) n →
        ∀ s ∈ dmesgDump w (logged .boot cs) n, ∃ c, (c ∈ cs ∨ w.Calls c) ∧ s.row = c.row.chars := by
  have hboot : LongestSuffix Fits [] [] := .nil ⟨Nat.zero_le _, Nat.zero_le _⟩
  obtain ⟨kept, h, hlong⟩ := Settled.logged (d := .boot) ⟨holds_boot, rfl⟩ hboot hone hended
  refine ⟨kept, hlong, h.holds.count, h.holds.dump_quiet, fun outsz n hpos => h.holds.tail hpos n, ?_⟩
  intro w n hw hlive s hs
  have hall : ∀ r ∈ cs.map Call.row, ∃ c, (c ∈ cs ∨ w.Calls c) ∧ r = c.row := by
    intro r hr
    obtain ⟨c, hc, rfl⟩ := List.mem_map.mp hr
    exact ⟨c, .inl hc, rfl⟩
  have hlines := dumpFrom_live (Q := fun r => ∃ c, (c ∈ cs ∨ w.Calls c) ∧ r = c.row) (fun c hc => (hw c hc).1)
    (fun c hc => (hw c hc).2) (fun c hc => ⟨c, .inr hc, rfl⟩) hall h hlong hlive s
  rw [dmesgDump] at hs
  dsimp only at hs
  split at hs
  · exact absurd hs List.not_mem_nil
  · obtain ⟨r, ⟨c, hc, rfl⟩, hrow⟩ := hlines hs
    exact ⟨c, hc, hrow⟩

theorem dmesg_keeps_lines_two : dmesgLines (logged .boot [⟨[0x61], true, true, 5⟩, ⟨[0x5B, 0x62], true, false, 6⟩]) = 2 := by
  obtain ⟨kept, hlong, hlines, -⟩ := dmesg_keeps_lines [⟨[0x61], true, true, 5⟩, ⟨[0x5B, 0x62], true, false, 6⟩] (by decide) (by decide)
  have hall := hlong.longest _ (List.suffix_refl _) ⟨by decide, by decide⟩
  rw [hlines, ← hall.eq_of_length_le hlong.suffix.length_le]
  rfl

/-- Two lines without newlines become one. A tail that has no room for the seconds of a stamp never ends, however many turns its
loop takes. -/
theorem dmesg_joins_lines :
    (∀ c ∈ ([⟨[0x61], false, false, 5⟩, ⟨[0x62], true, false, 6⟩] : List Call), c.OneLine) ∧
    (dmesgDump quiet (logged .boot [⟨[0x61], false, false, 5⟩, ⟨[0x62], true, false, 6⟩]) 0).map Shown.row = [[0x61, 0x62, newline]] ∧
    ([⟨[0x61], false, false, 5⟩, ⟨[0x62], true, false, 6⟩] : List Call).map (fun c => c.row.chars) = [[0x61, newline], [0x62, newline]] ∧
    dmesgTail (logged .boot [⟨[0x61], true, false, 5⟩]) 6 0 = .error .spinning := by
  refine ⟨by decide, by decide, by decide, by rfl⟩

end Ezos.Log
