import Ezos.Ext4.Volume
import Ezos.Lib.BlockMoves

/-!
# The counts of free blocks and inodes (`e4_gd_ptr` and `e4_update_counts` of `kernel/ext4.c`)

The buffer of the superblock has 1024 bytes, and what is read into it has the size of a block and begins where the volume
begins, unless blocks have 1024 bytes. With those, the two counts and the descriptor of the group change and nothing else.
-/

namespace Ezos.Ext4

open Lib.Memory

set_option autoImplicit false

/-- The device, the memory of the kernel and `e4_blocks_free`. -/
structure Ram where
  disk : Device
  mem : Mem
  blocksFree : U32

/-- Where the buffers `sb` (1024 bytes) and `e4_blk` (4096 bytes) are. -/
structure Buffers where
  sb : Nat
  blk : Nat

def e4ReadSecs (d : Device) (m : Mem) (a : Nat) (lba : U32) (n : Nat) : Mem :=
  copyIn m a (n * 512) fun i => d (lba + BitVec.ofNat 32 (i / 512)) (i % 512)

def e4WriteSecs (d : Device) (m : Mem) (a : Nat) (lba : U32) : Nat → Device
  | 0 => d
  | n + 1 => fun l => if l = lba + BitVec.ofNat 32 n then fun x => m (a + n * 512 + x) else e4WriteSecs d m a lba n l

/-- `e4_gd_ptr`: the block of the descriptor of a group, and where it is in that block. -/
def e4GdBlk (v : Vol) (group : U32) : U32 := v.gdtBlk + (wide group * wide v.descSize / wide v.blksize).setWidth 32
def e4GdIn (v : Vol) (group : U32) : Nat := (wide group * wide v.descSize % wide v.blksize).toNat

def e4UpdateCounts (b : Buffers) (v : Vol) (s : Ram) (group db di : U32) : Ram :=
  let group := if group ≥ v.groups then 0 else group
  let lba := v.part + if v.blksize = 1024 then 2 else 0
  let n := if v.blksize = 1024 then 2 else (v.blksize / 512).toNat
  let m := e4ReadSecs s.disk s.mem b.sb lba n
  let m := write32 m (b.sb + 12) (read32 m (b.sb + 12) + db)
  let m := write32 m (b.sb + 16) (read32 m (b.sb + 16) + di)
  let d := e4WriteSecs s.disk m b.sb lba n
  let blkLba := v.part + e4GdBlk v group * v.blkPerSec
  let gd := b.blk + e4GdIn v group
  let m := e4ReadSecs d m b.blk blkLba v.blkPerSec.toNat
  let fb := read16 m (gd + 12)
  let fi := read16 m (gd + 14)
  let m := write16 m (gd + 12) (fb + db.setWidth 16)
  let m := write16 m (gd + 14) (fi + di.setWidth 16)
  { disk := e4WriteSecs d m b.blk blkLba v.blkPerSec.toNat, mem := m, blocksFree := s.blocksFree + db }

def image (part : U32) (d : Device) : Mem := fun x => d (part + BitVec.ofNat 32 (x / 512)) (x % 512)

def imageSize : Nat := 2199023255552

def gdOffset (v : Vol) (group : U32) : Nat := v.gdtBlk.toNat * v.blksize.toNat + group.toNat * v.descSize.toNat

def counted (f : Mem) (gd : Nat) (db di : U32) : Mem :=
  let f := write32 f 1036 (read32 f 1036 + db)
  let f := write32 f 1040 (read32 f 1040 + di)
  let fb := read16 f (gd + 12)
  let fi := read16 f (gd + 14)
  write16 (write16 f (gd + 12) (fb + db.setWidth 16)) (gd + 14) (fi + di.setWidth 16)

structure Counted (b : Buffers) (v : Vol) (s s' : Ram) (group db di : U32) : Prop where
  disk : ∀ x < imageSize, image v.part s'.disk x = counted (image v.part s.disk) (gdOffset v group) db di x
  mem : ∀ a, (a < b.sb ∨ b.sb + 1024 ≤ a) → (a < b.blk ∨ b.blk + 4096 ≤ a) → s'.mem a = s.mem a
  free : s'.blocksFree = s.blocksFree + db

variable {d : Device} {m f : Mem} {a k n x : Nat} {part lba : U32} {v : Vol} {b : Buffers} {s : Ram} {group db di : U32}

theorem read_shows (h : ∀ x < imageSize, image part d x = f x) (hk : k + n ≤ 4294967296) :
    Shows (e4ReadSecs d m a (part + BitVec.ofNat 32 k) n) a f (k * 512) (n * 512) := by
  intro i hi
  have hdiv : (k * 512 + i) / 512 = k + i / 512 := by omega
  have hmod : (k * 512 + i) % 512 = i % 512 := by omega
  rw [← h _ (by unfold imageSize; omega)]
  unfold e4ReadSecs copyIn image
  rw [if_pos (by omega), Nat.add_sub_cancel_left, hdiv, hmod, BitVec.ofNat_add, ← BitVec.add_assoc]

theorem writeSecs_succ {l : U32} : e4WriteSecs d m a lba (n + 1) l =
    if l = lba + BitVec.ofNat 32 n then fun x => m (a + n * 512 + x) else e4WriteSecs d m a lba n l := rfl

theorem write_image (hk : k + n ≤ 4294967296) (hx : x < imageSize) :
    image part (e4WriteSecs d m a (part + BitVec.ofNat 32 k) n) x =
      if k ≤ x / 512 ∧ x / 512 < k + n then m (a + (x - k * 512)) else image part d x := by
  unfold imageSize at hx
  induction n with
  | zero =>
    rw [if_neg (by omega)]
    rfl
  | succ n ih =>
    have ih := ih (by omega)
    have hword : part + BitVec.ofNat 32 (x / 512) = part + BitVec.ofNat 32 k + BitVec.ofNat 32 n ↔ x / 512 = k + n := by
      rw [BitVec.add_assoc, ← BitVec.ofNat_add, BitVec.add_right_inj]
      refine ⟨fun h => ?_, fun h => by rw [h]⟩
      have hn := congrArg BitVec.toNat h
      rwa [BitVec.toNat_ofNat, BitVec.toNat_ofNat, Nat.mod_eq_of_lt (by omega), Nat.mod_eq_of_lt (by omega)] at hn
    unfold image at ih ⊢
    rw [writeSecs_succ]
    by_cases hlast : x / 512 = k + n
    · rw [if_pos (hword.mpr hlast), if_pos (by omega)]
      congr 1
      omega
    · rw [if_neg (fun h => hlast (hword.mp h)), ih]
      by_cases hin : k ≤ x / 512 ∧ x / 512 < k + n
      · rw [if_pos hin, if_pos (by omega)]
      · rw [if_neg hin, if_neg (by omega)]

theorem write_back {g : Mem} (h : ∀ x < imageSize, image part d x = f x) (hk : k + n ≤ 4294967296)
    (hshow : Shows m a g (k * 512) (n * 512)) (hout : ∀ x, x / 512 < k ∨ k + n ≤ x / 512 → g x = f x) :
    ∀ x < imageSize, image part (e4WriteSecs d m a (part + BitVec.ofNat 32 k) n) x = g x := by
  intro x hx
  rw [write_image hk hx]
  by_cases hin : k ≤ x / 512 ∧ x / 512 < k + n
  · have hle : k * 512 ≤ x := by omega
    rw [if_pos hin, hshow _ (by omega), Nat.add_sub_of_le hle]
  · rw [if_neg hin, h x hx, hout x (by omega)]

theorem read_off (h : x < a ∨ a + n * 512 ≤ x) : e4ReadSecs d m a lba n x = m x := if_neg (by omega)

structure Grouped (v : Vol) : Prop where
  geometry : Geometry v
  few : v.groups ≤ 65536
  gdt : v.gdtBlk = if v.blksize = 1024 then 2 else 1

theorem ext4Mount_grouped {disk : Device} {cap : U32} {stale : Mem} (h : ext4Mount disk cap part stale = some v) : Grouped v := by
  have hgeometry := (ext4Mount_geometry h).1
  unfold ext4Mount at h
  dsimp only at h
  simp only [Option.ite_none_left_eq_some] at h
  obtain ⟨-, -, -, -, -, -, -, -, hfew, h⟩ := h
  obtain rfl := Option.some.inj h
  exact ⟨hgeometry, BitVec.not_lt.mp hfew, rfl⟩

theorem wide_mul (x y : U32) : (wide x * wide y).toNat = x.toNat * y.toNat := by
  have hlt : x.toNat * y.toNat < 2 ^ 32 * 2 ^ 32 := Nat.mul_lt_mul'' x.isLt y.isLt
  rw [← Nat.pow_add] at hlt
  unfold wide
  rw [BitVec.toNat_mul, BitVec.toNat_setWidth, BitVec.toNat_setWidth, Nat.mod_eq_of_lt (Nat.lt_trans x.isLt (by decide)),
    Nat.mod_eq_of_lt (Nat.lt_trans y.isLt (by decide)), Nat.mod_eq_of_lt hlt]

structure InGdt (v : Vol) (group : U32) (g : Nat) : Prop where
  blk : e4GdBlk v group = BitVec.ofNat 32 g
  first : v.gdtBlk.toNat ≤ g
  few : g < 8192
  offset : gdOffset v group = g * v.blksize.toNat + e4GdIn v group
  inside : e4GdIn v group + 32 ≤ v.blksize.toNat

theorem gd_inGdt (hv : Grouped v) (hg : group < v.groups) (hdesc : v.descSize = 32 ∨ v.descSize = 64) :
    ∃ g, InGdt v group g := by
  have hsize := hv.geometry.size_nat
  have hfew : v.groups.toNat ≤ 65536 := hv.few
  have hlt : group.toNat < v.groups.toNat := hg
  have hgdt : v.gdtBlk.toNat ≤ 2 := by
    rw [hv.gdt]
    split <;> decide
  have hd : v.descSize.toNat = 32 ∨ v.descSize.toNat = 64 := by
    rcases hdesc with h | h
    · exact Or.inl (by rw [h]; rfl)
    · exact Or.inr (by rw [h]; rfl)
  have hoff : group.toNat * v.descSize.toNat < 65536 * 64 := by
    rcases hd with h | h <;> rw [h] <;> omega
  have hwide : (wide v.blksize).toNat = v.blksize.toNat := by
    unfold wide
    rw [BitVec.toNat_setWidth, Nat.mod_eq_of_lt (Nat.lt_trans v.blksize.isLt (by decide))]
  have hin : e4GdIn v group = group.toNat * v.descSize.toNat % v.blksize.toNat := by
    unfold e4GdIn
    rw [BitVec.toNat_umod, wide_mul, hwide]
  have hpos : 0 < v.blksize.toNat := by omega
  have hdiv := Nat.div_add_mod (group.toNat * v.descSize.toNat) v.blksize.toNat
  have hquot : group.toNat * v.descSize.toNat / v.blksize.toNat < 4096 := by
    rw [Nat.div_lt_iff_lt_mul hpos]
    omega
  refine ⟨v.gdtBlk.toNat + group.toNat * v.descSize.toNat / v.blksize.toNat, ?_, Nat.le_add_right _ _, ?_, ?_, ?_⟩
  · unfold e4GdBlk
    rw [BitVec.ofNat_add, BitVec.ofNat_toNat, BitVec.setWidth_eq]
    congr 1
    apply BitVec.eq_of_toNat_eq
    rw [BitVec.toNat_setWidth, BitVec.toNat_udiv, wide_mul, hwide, BitVec.toNat_ofNat]
  · generalize group.toNat * v.descSize.toNat / v.blksize.toNat = q at hquot
    omega
  · rw [hin, Nat.add_mul, Nat.mul_comm (_ / _), Nat.add_assoc, hdiv]
    rfl
  · rw [hin]
    rcases hd with h | h <;> rcases hsize with hs | hs | hs <;> rw [h, hs] <;> omega

def described (f : Mem) (gd : Nat) (db di : U32) : Mem :=
  write16 (write16 f (gd + 12) (read16 f (gd + 12) + db.setWidth 16)) (gd + 14) (read16 f (gd + 14) + di.setWidth 16)

theorem gd_written (hv : Grouped v) {g : Nat} (hg : InGdt v group g) (h : ∀ x < imageSize, image v.part d x = f x) :
    ∀ x < imageSize, image v.part
      (e4WriteSecs d
        (write16
          (write16 (e4ReadSecs d m b.blk (v.part + e4GdBlk v group * v.blkPerSec) v.blkPerSec.toNat) (b.blk + e4GdIn v group + 12)
            (read16 (e4ReadSecs d m b.blk (v.part + e4GdBlk v group * v.blkPerSec) v.blkPerSec.toNat)
              (b.blk + e4GdIn v group + 12) + db.setWidth 16))
          (b.blk + e4GdIn v group + 14)
          (read16 (e4ReadSecs d m b.blk (v.part + e4GdBlk v group * v.blkPerSec) v.blkPerSec.toNat)
            (b.blk + e4GdIn v group + 14) + di.setWidth 16))
        b.blk (v.part + e4GdBlk v group * v.blkPerSec) v.blkPerSec.toNat) x = described f (gdOffset v group) db di x := by
  have hsecs := hv.geometry.sectors_nat
  have hsize := hv.geometry.size_nat
  have hinside := hg.inside
  have hfew := hg.few
  have hoffset := hg.offset
  have hlba : v.part + e4GdBlk v group * v.blkPerSec = v.part + BitVec.ofNat 32 (g * v.blkPerSec.toNat) := by
    have hword : BitVec.ofNat 32 v.blkPerSec.toNat = v.blkPerSec := by rw [BitVec.ofNat_toNat, BitVec.setWidth_eq]
    rw [hg.blk, BitVec.ofNat_mul, hword]
  have hbound : g * v.blkPerSec.toNat + v.blkPerSec.toNat ≤ 4294967296 := by
    have hmul : g * v.blkPerSec.toNat ≤ 8192 * 8 := Nat.mul_le_mul (by omega) (by omega)
    omega
  have hbytes : g * v.blkPerSec.toNat * 512 = g * v.blksize.toNat := by rw [Nat.mul_assoc, hsecs]
  rw [hlba]
  have hshow := @read_shows d m f b.blk (g * v.blkPerSec.toNat) v.blkPerSec.toNat v.part h hbound
  have h12 := hshow.read16 (o := e4GdIn v group + 12) (by omega)
  have h14 := hshow.read16 (o := e4GdIn v group + 14) (by omega)
  have hat : ∀ i, g * v.blkPerSec.toNat * 512 + (e4GdIn v group + i) = gdOffset v group + i := by
    intro i
    rw [hbytes, hoffset, Nat.add_assoc]
  rw [hat, ← Nat.add_assoc] at h12 h14
  rw [h12, h14]
  have hone := hshow.write16 (o := e4GdIn v group + 12) (read16 f (gdOffset v group + 12) + db.setWidth 16)
  have htwo := hone.write16 (o := e4GdIn v group + 14) (read16 f (gdOffset v group + 14) + di.setWidth 16)
  rw [hat, hat, ← Nat.add_assoc, ← Nat.add_assoc] at htwo
  refine write_back h hbound htwo fun x hx => ?_
  -- the window is the block, and the two counts are inside it
  have hout : x < g * v.blksize.toNat ∨ g * v.blksize.toNat + v.blksize.toNat ≤ x := by
    rw [← hbytes, hsecs.symm, ← Nat.add_mul]
    generalize g * v.blkPerSec.toNat = k at hx
    omega
  unfold described
  rw [write16_of_disjoint (by omega), write16_of_disjoint (by omega)]

theorem counted_eq (f : Mem) (gd : Nat) (db di : U32) (hgd : 1044 ≤ gd) : counted f gd db di =
    described (write32 (write32 f 1036 (read32 f 1036 + db)) 1040 (read32 f 1040 + di)) gd db di := by
  unfold counted described
  dsimp only
  rw [read32_write32_of_disjoint f (read32 f 1036 + db) (by omega)]

theorem counts_small (hv : Grouped v) {g : Nat} (hg : InGdt v group g) (hin : group < v.groups) (hb : v.blksize = 1024) :
    Counted b v s (e4UpdateCounts b v s group db di) group db di := by
  have hsize : v.blksize.toNat = 1024 := by
    rw [hb]
    rfl
  have hgdt : v.gdtBlk = 2 := by rw [hv.gdt, if_pos hb]
  have hgd : 2048 ≤ gdOffset v group := by
    unfold gdOffset
    rw [hsize, hgdt]
    exact Nat.le_add_right _ _
  have hsecs := hv.geometry.sectors_nat
  have hinside := hg.inside
  have hlba : v.part + 2 = v.part + BitVec.ofNat 32 2 := rfl
  have hshow := @read_shows s.disk s.mem (image v.part s.disk) b.sb 2 2 v.part (fun _ _ => rfl) (by decide)
  have h12 := hshow.read32 (o := 12) (by decide)
  have hone := hshow.write32 (o := 12) (read32 (image v.part s.disk) 1036 + db)
  have h16 := hone.read32 (o := 16) (by decide)
  have htwo := hone.write32 (o := 16) (read32 (image v.part s.disk) 1040 + di)
  have hkeep : read32 (write32 (image v.part s.disk) 1036 (read32 (image v.part s.disk) 1036 + db)) 1040 =
      read32 (image v.part s.disk) 1040 := read32_write32_of_disjoint _ _ (by decide)
  have hfirst := write_back (fun _ _ => rfl) (by decide) htwo fun x hx => by
    rw [write32_of_disjoint (by omega), write32_of_disjoint (by omega)]
  unfold e4UpdateCounts
  dsimp only
  rw [if_neg (BitVec.not_le.mpr hin), if_pos hb, if_pos hb, hlba, h12, h16]
  refine ⟨fun x hx => ?_, fun a hsb hblk => ?_, rfl⟩
  · rw [counted_eq _ _ _ _ (by omega), ← hkeep]
    exact gd_written hv hg hfirst x hx
  · dsimp only
    have hroom : v.blkPerSec.toNat * 512 ≤ 4096 := by omega
    rw [write16_of_disjoint (by omega), write16_of_disjoint (by omega), read_off (by omega), write32_of_disjoint (by omega),
      write32_of_disjoint (by omega), read_off (by omega)]

theorem counts_large (hv : Grouped v) {g : Nat} (hg : InGdt v group g) (hin : group < v.groups) (hb : v.blksize ≠ 1024) :
    ¬ Counted b v s (e4UpdateCounts b v s group 1 0) group 1 0 := by
  have hgdt : v.gdtBlk = 1 := by rw [hv.gdt, if_neg hb]
  have hsize : v.blksize.toNat = 2048 ∨ v.blksize.toNat = 4096 := by
    rcases hv.geometry.size_nat with h | h
    · exact absurd (BitVec.eq_of_toNat_eq h) hb
    · exact h
  have hgd : 2048 ≤ gdOffset v group := by
    unfold gdOffset
    have hone : (1 : U32).toNat = 1 := rfl
    rw [hgdt, hone, Nat.one_mul]
    exact Nat.le_add_right_of_le (by omega)
  have hsecs : (v.blksize / 512).toNat * 512 = v.blksize.toNat := by
    have hword : (512 : U32).toNat = 512 := rfl
    rw [BitVec.toNat_udiv, hword]
    omega
  have hlba : v.part + 0 = v.part + BitVec.ofNat 32 0 := rfl
  intro hcounted
  have hdisk := hcounted.disk
  unfold e4UpdateCounts at hdisk
  dsimp only at hdisk
  rw [if_neg (BitVec.not_le.mpr hin), if_neg hb, if_neg hb, hlba] at hdisk
  generalize hm : write32 (write32 (e4ReadSecs s.disk s.mem b.sb (v.part + BitVec.ofNat 32 0) (v.blksize / 512).toNat) (b.sb + 12) _)
    (b.sb + 16) _ = m at hdisk
  have hword : ∀ x, 1036 ≤ x → x < 1040 →
      image v.part (e4WriteSecs s.disk m b.sb (v.part + BitVec.ofNat 32 0) (v.blksize / 512).toNat) x = image v.part s.disk x := by
    intro x hlo hhi
    rw [write_image (by omega) (by unfold imageSize; omega), if_pos (by omega), ← hm, write32_of_disjoint (by omega),
      write32_of_disjoint (by omega)]
    have hshow := @read_shows s.disk s.mem (image v.part s.disk) b.sb 0 (v.blksize / 512).toNat v.part (fun _ _ => rfl)
      (by omega)
    rw [hshow _ (by omega), Nat.zero_mul, Nat.zero_add, Nat.sub_zero]
  have hgdw := @gd_written (e4WriteSecs s.disk m b.sb (v.part + BitVec.ofNat 32 0) (v.blksize / 512).toNat) m _ v b group 1 0 hv g hg
    (fun _ _ => rfl)
  have hsame : read32 (image v.part s.disk) 1036 = read32 (image v.part s.disk) 1036 + 1 := by
    have hleft : ∀ x, 1036 ≤ x → x < 1036 + 4 → counted (image v.part s.disk) (gdOffset v group) 1 0 x = image v.part s.disk x := by
      intro x hlo hhi
      rw [← hdisk x (by unfold imageSize; omega), hgdw x (by unfold imageSize; omega)]
      unfold described
      rw [write16_of_disjoint (by omega), write16_of_disjoint (by omega), hword x hlo (by omega)]
    have hright : ∀ x, 1036 ≤ x → x < 1036 + 4 → counted (image v.part s.disk) (gdOffset v group) 1 0 x =
        write32 (image v.part s.disk) 1036 (read32 (image v.part s.disk) 1036 + 1) x := by
      intro x hlo hhi
      rw [counted_eq _ _ _ _ (by omega)]
      unfold described
      rw [write16_of_disjoint (by omega), write16_of_disjoint (by omega), write32_of_disjoint (by omega)]
    calc read32 (image v.part s.disk) 1036 = read32 (counted (image v.part s.disk) (gdOffset v group) 1 0) 1036 :=
          (read32_congr hleft).symm
      _ = read32 (write32 (image v.part s.disk) 1036 (read32 (image v.part s.disk) 1036 + 1)) 1036 := read32_congr hright
      _ = read32 (image v.part s.disk) 1036 + 1 := read32_write32_self _ _ _
  have hne : ∀ w : U32, w ≠ w + 1 := by
    intro w h
    have hn := congrArg BitVec.toNat h
    have hone : (1 : U32).toNat = 1 := rfl
    have hlt := w.isLt
    rw [BitVec.toNat_add, hone] at hn
    omega
  exact hne _ hsame

def smallDisk (log : U32) : Device := fun l =>
  if l = 2 then write16 (write32 (write32 (write16 (write32 (write32 zeros 4 100) 24 log) 56 0xEF53) 32 8192) 40 8) 88 128
  else zeros

end Ezos.Ext4
