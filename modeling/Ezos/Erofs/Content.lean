import Ezos.Erofs.Files

/-!
# What an uncompressed file holds

The content of a file is that of its blocks, of the tail behind its inode, or of the chunks that its table names. Reading a
flat file gives the content; reading a chunked one gives it when the driver looks at the table where it is.
-/

namespace Ezos.Erofs

open Lib.Memory

set_option autoImplicit false

theorem copyIn_congr {buf : Mem} {pos n : Nat} {f g : Nat → Byte} (h : ∀ i < n, f i = g i) :
    copyIn buf pos n f = copyIn buf pos n g := by
  funext x
  unfold copyIn
  by_cases hx : pos ≤ x ∧ x < pos + n
  · rw [if_pos hx, if_pos hx]
    exact h _ (by omega)
  · rw [if_neg hx, if_neg hx]

theorem copyIn_append {buf : Mem} {pos n m : Nat} {f : Nat → Byte} :
    copyIn (copyIn buf pos n f) (pos + n) m (fun i => f (n + i)) = copyIn buf pos (n + m) f := by
  funext x
  unfold copyIn
  by_cases hlo : pos ≤ x ∧ x < pos + n
  · rw [if_neg (by omega), if_pos hlo, if_pos (by omega)]
  · by_cases hhi : pos + n ≤ x ∧ x < pos + n + m
    · have hsub : n + (x - (pos + n)) = x - pos := by omega
      rw [if_pos hhi, if_pos (by omega)]
      exact congrArg f hsub
    · rw [if_neg hhi, if_neg hlo, if_neg (by omega)]

theorem copyIn_none {buf : Mem} {pos : Nat} {f : Nat → Byte} : copyIn buf pos 0 f = buf := by
  funext x
  exact if_neg (by omega)

theorem copyIn_inside {buf : Mem} {n k : Nat} {f : Nat → Byte} (hk : k < n) : copyIn buf 0 n f k = f k := by
  rw [copyIn, if_pos (by omega), Nat.sub_zero]

variable {v : Vol} {ino : Inode}

def chunkTable (ino : Inode) : Nat := if ino.hasIdx then (ino.tail + 7) / 8 * 8 else ino.tail

def chunkAddr (v : Vol) (ino : Inode) (c : Nat) : U32 :=
  if ino.hasIdx then read32 v.byte (chunkTable ino + c * 8 + 4) else read32 v.byte (chunkTable ino + c * 4)

def chunkByte (v : Vol) (ino : Inode) (addr : U32) (k : Nat) : Byte :=
  if addr = nullAddr then 0 else v.byte (addr.toNat * v.blksz + k % chunksize v ino)

def content (v : Vol) (ino : Inode) (k : Nat) : Byte :=
  if ino.datalayout = chunkBased then chunkByte v ino (chunkAddr v ino (k / chunksize v ino)) k
  else if ino.datalayout = flatInline ∧ (nblocks v ino - 1) * v.blksz ≤ k then
    v.byte (ino.tail + (k - (nblocks v ino - 1) * v.blksz))
  else v.byte (ino.iU.toNat * v.blksz + k)

structure FlatSound (v : Vol) (ino : Inode) : Prop where
  layout : ino.datalayout = flatPlain ∨ ino.datalayout = flatInline
  blocks : ino.iU.toNat + (nblocks v ino - 1) < 2 ^ 32

structure ChunksSound (v : Vol) (ino : Inode) : Prop where
  layout : ino.datalayout = chunkBased
  words : ino.hasIdx → ∀ c, c * chunksize v ino < ino.size → read32 v.byte (chunkTable ino + c * 8) = 0

theorem erFlatFrom_eq {raw : U32} {size n b done : Nat} {buf : Mem} (hraw : raw.toNat + (b + n) ≤ 2 ^ 32)
    (hdone : done = min size (b * v.blksz)) :
    erFlatFrom v raw size n b done buf =
      (copyIn buf done (min size ((b + n) * v.blksz) - done) (fun i => v.byte (raw.toNat * v.blksz + (done + i))),
        min size ((b + n) * v.blksz)) := by
  induction n generalizing b done buf with
  | zero =>
    rw [Nat.add_zero, ← hdone, Nat.sub_self, copyIn_none]
    rfl
  | succ n ih =>
    have hnext : b + (n + 1) = b + 1 + n := by omega
    have hstep : (b + 1) * v.blksz = b * v.blksz + v.blksz := Nat.succ_mul _ _
    have hrest : (b + 1) * v.blksz ≤ (b + 1 + n) * v.blksz := Nat.mul_le_mul_right _ (by omega)
    rw [hnext] at hraw ⊢
    unfold erFlatFrom
    by_cases hlt : done < size
    · have hb : done = b * v.blksz := by omega
      have haddr : (raw + BitVec.ofNat 32 b).toNat = raw.toNat + b := by
        rw [BitVec.toNat_add, BitVec.toNat_ofNat, Nat.mod_eq_of_lt (by omega : b < 2 ^ 32), Nat.mod_eq_of_lt (by omega)]
      have hplace : (raw.toNat + b) * v.blksz = raw.toNat * v.blksz + done := by rw [Nat.add_mul, hb]
      rw [if_pos hlt, ih (by omega) (by omega), haddr, v.read_eq, hplace]
      generalize hstop : min size ((b + 1 + n) * v.blksz) = stop
      have hlen : stop - done = min v.blksz (size - done) + (stop - (done + min v.blksz (size - done))) := by omega
      rw [hlen, ← copyIn_append]
      refine Prod.ext ?_ rfl
      dsimp only
      congr 1
      · exact copyIn_congr fun i _ => by rw [Nat.add_assoc]
      · funext i
        congr 1
        omega
    · have hall : min size ((b + 1 + n) * v.blksz) = done := by omega
      rw [if_neg hlt, hall, Nat.sub_self, copyIn_none]

theorem le_nblocks_mul (v : Vol) (ino : Inode) : ino.size ≤ nblocks v ino * v.blksz := by
  have hpos := v.blksz_pos
  have hdiv := Nat.div_add_mod (ino.size + v.blksz - 1) v.blksz
  have hmod := Nat.mod_lt (ino.size + v.blksz - 1) hpos
  rw [Nat.mul_comm] at hdiv
  unfold nblocks
  omega

theorem erReadFlat_eq (h : FlatSound v ino) (buf : Mem) (max : Nat) :
    erReadFlat v ino buf max = (copyIn buf 0 (min ino.size max) (content v ino), min ino.size max) := by
  have hchunk : ino.datalayout ≠ chunkBased := by
    rcases h.layout with hl | hl <;> rw [hl] <;> decide
  unfold erReadFlat
  generalize hs : min ino.size max = size
  generalize hn : nblocks v ino - 1 = last
  have hlast : ino.iU.toNat + last < 2 ^ 32 := hn ▸ h.blocks
  dsimp only
  rw [erFlatFrom_eq (by omega) (by omega), Nat.zero_add, Nat.sub_zero]
  dsimp only
  -- The blocks before the last.
  have hfull : ∀ i < min size (last * v.blksz), v.byte (ino.iU.toNat * v.blksz + (0 + i)) = content v ino i := by
    intro i hi
    rw [content, if_neg hchunk, if_neg (by rw [hn]; omega), Nat.zero_add]
  rw [copyIn_congr hfull]
  by_cases hmore : nblocks v ino ≠ 0 ∧ min size (last * v.blksz) < size
  · have hstop : min size (last * v.blksz) = last * v.blksz := by omega
    rw [if_pos hmore, hstop, v.read_eq]
    refine Prod.ext ?_ rfl
    dsimp only
    have hlen : last * v.blksz + (size - last * v.blksz) = size := by omega
    conv => rhs; rw [← hlen, ← copyIn_append]
    rw [Nat.zero_add]
    apply copyIn_congr
    intro i _
    unfold content
    rw [if_neg hchunk, hn]
    by_cases hin : ino.datalayout = flatInline
    · rw [if_pos hin, if_pos ⟨hin, by omega⟩]
      congr 1
      omega
    · have haddr : (ino.iU + BitVec.ofNat 32 (nblocks v ino) - 1).toNat = ino.iU.toNat + last := by
        have hone : (1 : U32) = BitVec.ofNat 32 1 := rfl
        have hsucc : nblocks v ino = last + 1 := by omega
        rw [hsucc, BitVec.ofNat_add, ← hone, ← BitVec.add_assoc, BitVec.add_sub_cancel, BitVec.toNat_add,
          BitVec.toNat_ofNat, Nat.mod_eq_of_lt (by omega : last < 2 ^ 32), Nat.mod_eq_of_lt hlast]
      rw [if_neg hin, if_neg fun hc => hin hc.1, haddr, Nat.add_mul, Nat.add_assoc]
  · -- Nothing is left for the last block.
    have hall : min size (last * v.blksz) = size := by
      by_contra hne
      have hz : nblocks v ino = 0 := by omega
      have hle := le_nblocks_mul v ino
      rw [hz, Nat.zero_mul] at hle
      omega
    rw [if_neg hmore, hall]

/-! ## Files of chunks -/

theorem chunkBlkaddr_eq (v : Vol) (ino : Inode) (c : Nat) :
    chunkBlkaddr v ino c = if ino.hasIdx then read32 v.byte (ino.tail + c * 8 + 4) else read32 v.byte (ino.tail + c * 4) := by
  unfold chunkBlkaddr
  cases ino.hasIdx with
  | true => exact v.read32_read _ _ (by decide)
  | false => exact v.read32_read _ _ (by decide)

def chunkRead (v : Vol) (ino : Inode) (k : Nat) : Byte := chunkByte v ino (chunkBlkaddr v ino (k / chunksize v ino)) k

theorem chunksize_pos (v : Vol) (ino : Inode) : 0 < chunksize v ino := Nat.two_pow_pos _

theorem erChunkFrom_eq {size n c done : Nat} {buf : Mem} (hdone : done = min size (c * chunksize v ino)) :
    erChunkFrom v ino size n c done buf =
      (copyIn buf done (min size ((c + n) * chunksize v ino) - done) (fun i => chunkRead v ino (done + i)),
        min size ((c + n) * chunksize v ino)) := by
  induction n generalizing c done buf with
  | zero =>
    rw [Nat.add_zero, ← hdone, Nat.sub_self, copyIn_none]
    rfl
  | succ n ih =>
    have hnext : c + (n + 1) = c + 1 + n := by omega
    have hpos := chunksize_pos v ino
    have hstep : (c + 1) * chunksize v ino = c * chunksize v ino + chunksize v ino := Nat.succ_mul _ _
    have hrest : (c + 1) * chunksize v ino ≤ (c + 1 + n) * chunksize v ino := Nat.mul_le_mul_right _ (by omega)
    rw [hnext]
    unfold erChunkFrom
    by_cases hlt : done < size
    · have hc : done = c * chunksize v ino := by omega
      -- The bytes of this chunk are those of its address, or clear.
      have hput : (if chunkBlkaddr v ino c = nullAddr then fill buf done (min (chunksize v ino) (size - done)) 0
            else v.read ((chunkBlkaddr v ino c).toNat * v.blksz) buf done (min (chunksize v ino) (size - done))) =
          copyIn buf done (min (chunksize v ino) (size - done)) fun i => chunkRead v ino (done + i) := by
        have hsame : ∀ i < min (chunksize v ino) (size - done), chunkRead v ino (done + i) =
            if chunkBlkaddr v ino c = nullAddr then 0 else v.byte ((chunkBlkaddr v ino c).toNat * v.blksz + i) := by
          intro i hi
          have hi' : i < chunksize v ino := by omega
          have hdiv : (done + i) / chunksize v ino = c := by
            rw [hc, Nat.mul_comm, Nat.mul_add_div hpos, Nat.div_eq_of_lt hi', Nat.add_zero]
          have hmod : (done + i) % chunksize v ino = i := by
            rw [hc, Nat.mul_comm, Nat.mul_add_mod, Nat.mod_eq_of_lt hi']
          rw [chunkRead, chunkByte, hdiv, hmod]
        rw [copyIn_congr hsame]
        by_cases hnull : chunkBlkaddr v ino c = nullAddr
        · simp only [if_pos hnull]
          rfl
        · simp only [if_neg hnull]
          exact v.read_eq _ _ _ _
      rw [if_pos hlt]
      dsimp only
      rw [hput, ih (by omega)]
      generalize hstop : min size ((c + 1 + n) * chunksize v ino) = stop
      have hlen : stop - done = min (chunksize v ino) (size - done) + (stop - (done + min (chunksize v ino) (size - done))) := by
        omega
      rw [hlen, ← copyIn_append]
      refine Prod.ext ?_ rfl
      dsimp only
      apply copyIn_congr
      intro i _
      rw [Nat.add_assoc]
    · have hall : min size ((c + 1 + n) * chunksize v ino) = done := by omega
      rw [if_neg hlt, hall, Nat.sub_self, copyIn_none]

theorem erReadChunk_eq (v : Vol) (ino : Inode) (buf : Mem) (max : Nat) :
    erReadChunk v ino buf max = (copyIn buf 0 (min ino.size max) (chunkRead v ino), min ino.size max) := by
  have hpos := chunksize_pos v ino
  have hdiv := Nat.div_add_mod (ino.size + chunksize v ino - 1) (chunksize v ino)
  have hmod := Nat.mod_lt (ino.size + chunksize v ino - 1) hpos
  rw [Nat.mul_comm] at hdiv
  unfold erReadChunk
  rw [erChunkFrom_eq (by omega), Nat.zero_add, Nat.sub_zero]
  generalize (ino.size + chunksize v ino - 1) / chunksize v ino * chunksize v ino = whole at hdiv ⊢
  have hall : min (min ino.size max) whole = min ino.size max := by omega
  rw [hall]
  refine Prod.ext ?_ rfl
  dsimp only
  apply copyIn_congr
  intro i _
  rw [Nat.zero_add]

def TableAligned (ino : Inode) : Prop := ino.hasIdx → ino.tail % 8 = 0

instance (ino : Inode) : Decidable (TableAligned ino) := by
  unfold TableAligned
  infer_instance

theorem chunkBlkaddr_of_aligned (h : TableAligned ino) (c : Nat) : chunkBlkaddr v ino c = chunkAddr v ino c := by
  rw [chunkBlkaddr_eq, chunkAddr, chunkTable]
  by_cases hidx : ino.hasIdx
  · have htable : (ino.tail + 7) / 8 * 8 = ino.tail := by
      have hmod := h hidx
      omega
    rw [if_pos hidx, if_pos hidx, if_pos hidx, htable]
  · rw [if_neg hidx, if_neg hidx, if_neg hidx]

theorem xattrIsizeOf_mod (icnt : Nat) : xattrIsizeOf icnt % 4 = 0 := by
  unfold xattrIsizeOf
  by_cases h : icnt = 0
  · rw [if_pos h]
  · rw [if_neg h]
    omega

theorem tail_mod (hbits : 2 ≤ v.blkszbits) (nid : U32) : (inodeAt v nid).tail % 4 = 0 := by
  have hblk : v.blksz % 4 = 0 := by
    have hsplit : v.blkszbits = 2 + (v.blkszbits - 2) := by omega
    rw [Vol.blksz, hsplit, Nat.pow_add]
    exact Nat.mul_mod_right 4 _
  have hmeta : v.metaOff % 4 = 0 := by
    rw [Vol.metaOff, Nat.mul_mod, hblk, Nat.mul_zero, Nat.zero_mod]
  have hisize : (inodeAt v nid).inodeIsize % 4 = 0 := by
    rw [inodeAt]
    dsimp only
    split <;> rfl
  have hxattr : (inodeAt v nid).xattrIsize % 4 = 0 := xattrIsizeOf_mod _
  have hiloc : (inodeAt v nid).iloc = v.metaOff + nid.toNat * 32 := rfl
  rw [Inode.tail]
  omega

theorem chunkBlkaddr_of_not_aligned (h : ChunksSound v ino) (htail : ino.tail % 4 = 0) (hna : ¬ TableAligned ino) {c : Nat}
    (hc : c * chunksize v ino < ino.size) : chunkBlkaddr v ino c = 0 := by
  by_cases hidx : ino.hasIdx
  · have hmod : ino.tail % 8 ≠ 0 := fun h8 => hna fun _ => h8
    have hplace : ino.tail + c * 8 + 4 = chunkTable ino + c * 8 := by
      rw [chunkTable, if_pos hidx]
      omega
    rw [chunkBlkaddr_eq, if_pos hidx, hplace]
    exact h.words hidx c hc
  · exact absurd (fun h1 => absurd h1 hidx) hna

theorem chunkRead_eq (h : ChunksSound v ino) (htail : ino.tail % 4 = 0) {k : Nat} (hk : k < ino.size) :
    chunkRead v ino k = if TableAligned ino then content v ino k else v.byte (k % chunksize v ino) := by
  rw [chunkRead]
  by_cases ha : TableAligned ino
  · rw [if_pos ha, chunkBlkaddr_of_aligned ha, content, if_pos h.layout]
  · have hlt : k / chunksize v ino * chunksize v ino < ino.size := Nat.lt_of_le_of_lt (Nat.div_mul_le_self _ _) hk
    have hnull : ¬ (0 : U32) = nullAddr := by decide
    have hzero : (0 : U32).toNat = 0 := rfl
    rw [if_neg ha, chunkBlkaddr_of_not_aligned h htail ha hlt, chunkByte, if_neg hnull, hzero, Nat.zero_mul, Nat.zero_add]

end Ezos.Erofs

/-!
# The format of a directory

A directory is a sequence of blocks. Each begins with an array of entries, whose number the place of the first name tells, and
the names follow in the order of the entries; the last ends at a zero or at the end of the block. The walk of the driver only
looks at the first block, and lets its last name run to the end of the directory.
-/

namespace Ezos.Erofs

open Lib.Memory

section Strings

variable {f g : Mem} {o n m : Nat}

theorem bytesAt_succ : bytesAt f o (n + 1) = f o :: bytesAt f (o + 1) n := by
  rw [bytesAt, List.range_succ_eq_map, List.map_cons, List.map_map, Nat.add_zero]
  refine congrArg (f o :: ·) ?_
  apply List.map_congr_left
  intro i _
  simp only [Function.comp_apply, Nat.succ_eq_add_one]
  congr 1
  omega

theorem length_bytesAt : (bytesAt f o n).length = n := by
  rw [bytesAt, List.length_map, List.length_range]

theorem bytesAt_congr (h : ∀ x, o ≤ x → x < o + n → f x = g x) : bytesAt f o n = bytesAt g o n := by
  apply List.map_congr_left
  intro i hi
  have hlt := List.mem_range.mp hi
  exact h _ (by omega) (by omega)

theorem cstr_bytesAt_of_zero (h : f o = 0) : cstr (bytesAt f o n) = [] := by
  cases n with
  | zero => rfl
  | succ n =>
    rw [bytesAt_succ, cstr]
    exact List.takeWhile_cons_of_neg fun hne => of_decide_eq_true hne h

theorem cstr_bytesAt_of_ne (h : f o ≠ 0) : cstr (bytesAt f o (n + 1)) = f o :: cstr (bytesAt f (o + 1) n) := by
  rw [bytesAt_succ, cstr]
  exact List.takeWhile_cons_of_pos (decide_eq_true h)

theorem length_cstr_le (l : List Byte) : (cstr l).length ≤ l.length := (List.takeWhile_prefix _).length_le

theorem cstr_of_length {l : List Byte} (h : (cstr l).length = l.length) : cstr l = l :=
  (List.takeWhile_prefix _).eq_of_length h

theorem cstr_extend (hnm : n ≤ m) :
    cstr (bytesAt f o m) = cstr (bytesAt f o n) ↔
      (cstr (bytesAt f o n)).length = m ∨ f (o + (cstr (bytesAt f o n)).length) = 0 := by
  induction n generalizing o m with
  | zero =>
    have hnil : cstr (bytesAt f o 0) = [] := rfl
    rw [hnil, List.length_nil, Nat.add_zero]
    by_cases h : f o = 0
    · exact ⟨fun _ => Or.inr h, fun _ => cstr_bytesAt_of_zero h⟩
    · cases m with
      | zero => exact ⟨fun _ => Or.inl rfl, fun _ => rfl⟩
      | succ m =>
        rw [cstr_bytesAt_of_ne h]
        exact ⟨fun hc => absurd hc (List.cons_ne_nil _ _), fun hc => absurd (hc.resolve_left (by omega)) h⟩
  | succ n ih =>
    obtain ⟨m, rfl⟩ : ∃ m', m = m' + 1 := ⟨m - 1, by omega⟩
    by_cases h : f o = 0
    · rw [cstr_bytesAt_of_zero h, cstr_bytesAt_of_zero h, List.length_nil, Nat.add_zero]
      exact ⟨fun _ => Or.inr h, fun _ => rfl⟩
    · have hplace : o + (f o :: cstr (bytesAt f (o + 1) n)).length = o + 1 + (cstr (bytesAt f (o + 1) n)).length := by
        rw [List.length_cons]
        omega
      rw [cstr_bytesAt_of_ne h, cstr_bytesAt_of_ne h, hplace, List.cons.injEq, eq_self, true_and, ih (by omega),
        List.length_cons, Nat.add_right_cancel_iff]

end Strings

def dotName (name : List Byte) : Bool := name = [dot] ∨ name = [dot, dot]

def direntCount (g : Mem) : Nat := nameoff g 0 / direntSize

def nameStop (g : Mem) (len i : Nat) : Nat := if i + 1 < direntCount g then nameoff g (i + 1) else len

def nameIn (g : Mem) (len i : Nat) : List Byte := cstr (bytesAt g (nameoff g i) (nameStop g len i - nameoff g i))

def entryIn (g : Mem) (len i : Nat) : Dirent where
  name := nameIn g len i
  nid := read32 g (i * direntSize)
  isDir := g (i * direntSize + 10) = ftDir

def entriesIn (g : Mem) (len : Nat) : List Dirent := (List.range (direntCount g)).map (entryIn g len)

def realIn (g : Mem) (len : Nat) : List Dirent := (entriesIn g len).filter fun e => !dotName e.name

structure DirBlock (g : Mem) (len : Nat) : Prop where
  pos : 0 < direntCount g
  first : nameoff g 0 = direntCount g * direntSize
  rising : ∀ i, i + 1 < direntCount g → nameoff g i < nameoff g (i + 1)
  inside : ∀ i < direntCount g, nameoff g i < len
  name : ∀ i < direntCount g, nameIn g len i ≠ [] ∧ (nameIn g len i).length ≤ 255
  whole : ∀ i, i + 1 < direntCount g → (nameIn g len i).length = nameoff g (i + 1) - nameoff g i
  nid : ∀ i < direntCount g, read32 g (i * direntSize + 4) = 0

variable {f g : Mem} {len bs size : Nat}

theorem DirBlock.le_nameoff (h : DirBlock g len) {i : Nat} (hi : i < direntCount g) :
    direntCount g * direntSize ≤ nameoff g i := by
  induction i with
  | zero => exact Nat.le_of_eq h.first.symm
  | succ i ih =>
    have hprev := ih (by omega)
    have hrise := h.rising i hi
    omega

theorem DirBlock.direntSize_lt (h : DirBlock g len) : direntSize < len := by
  have hlt := h.inside 0 h.pos
  have hpos := h.pos
  have hfirst := h.first
  unfold direntSize at *
  omega

theorem DirBlock.count_le (h : DirBlock g len) : direntCount g * direntSize ≤ len := by
  have hlt := h.inside 0 h.pos
  have hfirst := h.first
  omega

def blockMem (f : Mem) (bs b : Nat) : Mem := fun x => f (b * bs + x)

def blockLen (bs size b : Nat) : Nat := min bs (size - b * bs)

def dirEntries (f : Mem) (bs size : Nat) : List Dirent :=
  (List.range ((size + bs - 1) / bs)).flatMap fun b => entriesIn (blockMem f bs b) (blockLen bs size b)

def realEntries (f : Mem) (bs size : Nat) : List Dirent := (dirEntries f bs size).filter fun e => !dotName e.name

/-- The entries of a directory of `size` bytes are well formed, and no real one leads to where a `.` or `..` leads. -/
structure DirBytes (f : Mem) (bs size : Nat) : Prop where
  blocks : ∀ b, b * bs < size → DirBlock (blockMem f bs b) (blockLen bs size b)
  dots : ∀ e ∈ dirEntries f bs size, ∀ e' ∈ dirEntries f bs size, dotName e.name = true → dotName e'.name = false →
    e'.nid ≠ e.nid

/-- The name of the last entry of the first block ends where the driver lets it end; or the driver takes it for that of a dot
entry as it is one, or for too long. -/
def LastNameFits (f : Mem) (bs size : Nat) : Prop :=
  let i := direntCount f - 1
  let name := nameIn f (min bs size) i
  if dotName name then nameoff f i + name.length = size ∨ 255 < size - nameoff f i
  else size - nameoff f i ≤ 255 ∧ (nameoff f i + name.length = size ∨ f (nameoff f i + name.length) = 0)

structure WalkFits (f : Mem) (bs size : Nat) : Prop where
  firstBlock : ∀ b, 0 < b → b * bs < size → realIn (blockMem f bs b) (blockLen bs size b) = []
  lastName : LastNameFits f bs size

end Ezos.Erofs
