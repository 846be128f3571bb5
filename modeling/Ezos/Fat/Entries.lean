import Ezos.Fat.Format
import Ezos.Lib.BlockMoves

/-!
# The entries of the FAT behind their cache (`fat_cache_load`, `fat_entry_get` and `fat_entry_set` of `kernel/fat.c`)

The requests to the device are numbered, and each may fail. A write that fails may have reached its sector. The sectors
of a volume are counted from its first one, and each is read in blocks of 512 bytes.
-/

namespace Ezos.Fat

open Lib.Memory Lib.BlockMoves

set_option autoImplicit false

inductive Reply
  | done
  | refused
  | lost
  deriving DecidableEq

structure Dev where
  disk : Disk
  replies : Nat → Reply
  asked : List U32

def Dev.reply (d : Dev) : Reply := d.replies d.asked.length

def Dev.ataReadSector (d : Dev) (lba : U32) : Option Mem × Dev :=
  (if d.reply = .done then some (d.disk lba) else none, { d with asked := lba :: d.asked })

def Dev.ataWriteSector (d : Dev) (lba : U32) (buf : Mem) : Bool × Dev :=
  (decide (d.reply = .done),
    { d with
      disk := if d.reply = .refused then d.disk else Fat.ataWriteSector d.disk lba buf
      asked := lba :: d.asked })

def readParts : List (U32 × Nat) → Dev → Mem → Bool × Dev × Mem
  | [], d, buf => (true, d, buf)
  | p :: ps, d, buf =>
    match d.ataReadSector p.1 with
    | (none, d) => (false, d, buf)
    | (some m, d) => readParts ps d (copyIn buf p.2 512 m)

def writeParts (buf : Mem) : List (U32 × Nat) → Dev → Bool × Dev
  | [], d => (true, d)
  | p :: ps, d =>
    match d.ataWriteSector p.1 fun x => buf (p.2 + x) with
    | (false, d) => (false, d)
    | (true, d) => writeParts buf ps d

structure FatInfo where
  kind : Kind
  partStart : U32
  bytesPerSector : U32
  reservedSectors : U32
  clusterCount : U32

structure Codec where
  dev : Dev
  cache : Mem
  cacheSec : U32
  cacheN : Nat

/-- The blocks of a sector of the volume, and of `n` of them; the first block of a sector is found by its number. -/
def FatInfo.volParts (fi : FatInfo) (volSec : U32) (a : Nat) : List (U32 × Nat) :=
  (List.range (fi.bytesPerSector / 512).toNat).map fun i => (fi.partStart + volSec + BitVec.ofNat 32 i, a + i * 512)

def FatInfo.parts (fi : FatInfo) (sec : U32) (n : Nat) : List (U32 × Nat) :=
  (List.range n).flatMap fun i => fi.volParts (sec + BitVec.ofNat 32 i) (i * fi.bytesPerSector.toNat)

def Codec.fatCacheLoad (fi : FatInfo) (s : Codec) (off len : U32) : Bool × Codec :=
  let sec := fi.reservedSectors + off / fi.bytesPerSector
  let start := off % fi.bytesPerSector
  let n := ((start + len + fi.bytesPerSector - 1) / fi.bytesPerSector).toNat
  let n := if n < 1 then 1 else n
  if n > 2 then (false, s)
  else if s.cacheSec = sec ∧ s.cacheN ≥ n then (true, s)
  else
    match readParts (fi.parts sec n) s.dev s.cache with
    | (false, dev, cache) => (false, { s with dev := dev, cache := cache })
    | (true, dev, cache) => (true, { dev := dev, cache := cache, cacheSec := sec, cacheN := n })

def Kind.off (k : Kind) (n : U32) : U32 :=
  match k with
  | .fat12 => n + n / 2
  | .fat16 => n * 2
  | .fat32 => n * 4

def Kind.len : Kind → U32
  | .fat12 => 2
  | .fat16 => 2
  | .fat32 => 4

def Kind.decode (k : Kind) (n : U32) (m : Mem) (a : Nat) : U32 :=
  let byte (i : Nat) : U32 := (m (a + i)).setWidth 32
  match k with
  | .fat12 => if n &&& 1 ≠ 0 then byte 1 <<< 4 ||| byte 0 >>> 4 else byte 0 ||| (byte 1 &&& 0x0F) <<< 8
  | .fat16 => byte 0 ||| byte 1 <<< 8
  | .fat32 => (byte 0 ||| byte 1 <<< 8 ||| byte 2 <<< 16 ||| byte 3 <<< 24) &&& 0x0FFFFFFF

def Kind.encode (k : Kind) (n : U32) (m : Mem) (a : Nat) (val : U32) : List Byte :=
  match k with
  | .fat12 =>
    if n &&& 1 ≠ 0 then [m a &&& 0x0F#8 ||| (val <<< 4 &&& 0xF0#32).setWidth 8, (val >>> 4).setWidth 8]
    else [(val &&& 0xFF#32).setWidth 8, m (a + 1) &&& 0xF0#8 ||| (val >>> 8 &&& 0x0F#32).setWidth 8]
  | .fat16 => [(val &&& 0xFF#32).setWidth 8, (val >>> 8 &&& 0xFF#32).setWidth 8]
  | .fat32 => [(val &&& 0xFF#32).setWidth 8, (val >>> 8 &&& 0xFF#32).setWidth 8, (val >>> 16 &&& 0xFF#32).setWidth 8,
      (val >>> 24 &&& 0xFF#32).setWidth 8]

def FatInfo.Refuses (fi : FatInfo) (n : U32) : Prop := n < 2 ∨ n ≥ fi.clusterCount + 2

instance (fi : FatInfo) (n : U32) : Decidable (fi.Refuses n) :=
  inferInstanceAs (Decidable (n < 2 ∨ n ≥ fi.clusterCount + 2))

def Codec.fatEntryGet (fi : FatInfo) (s : Codec) (n : U32) : Option U32 × Codec :=
  if fi.Refuses n then (none, s)
  else
    match s.fatCacheLoad fi (fi.kind.off n) fi.kind.len with
    | (false, s) => (none, s)
    | (true, s) => (some (fi.kind.decode n s.cache (fi.kind.off n % fi.bytesPerSector).toNat), s)

def Codec.fatEntrySet (fi : FatInfo) (s : Codec) (n val : U32) : Bool × Codec :=
  if fi.Refuses n then (false, s)
  else
    match s.fatCacheLoad fi (fi.kind.off n) fi.kind.len with
    | (false, s) => (false, s)
    | (true, s) =>
      let start := (fi.kind.off n % fi.bytesPerSector).toNat
      let cache := writeBytes s.cache start (fi.kind.encode n s.cache start val)
      match writeParts cache (fi.parts (fi.reservedSectors + fi.kind.off n / fi.bytesPerSector) s.cacheN) s.dev with
      | (ok, dev) => (ok, { s with dev := dev, cache := cache })

/-- The cache after `fat_mount` has cleared it. -/
def Codec.mounted (dev : Dev) (cache : Mem) : Codec := { dev := dev, cache := cache, cacheSec := 0xFFFFFFFF, cacheN := 0 }

/-! ## Packing -/

variable {k : Kind} {m : Mem} {a : Nat} {n n' v : U32} {f : Nat → Byte}

def Kind.offset (k : Kind) (n : Nat) : Nat :=
  match k with
  | .fat12 => n + n / 2
  | .fat16 => n * 2
  | .fat32 => n * 4

def Kind.width : Kind → Nat
  | .fat12 => 12
  | .fat16 => 16
  | .fat32 => 28

theorem or_shifted {x y : U32} {j : Nat} (hx : x.toNat < 2 ^ (32 - j)) (hy : y.toNat < 2 ^ j) (hj : j ≤ 32) :
    (y ||| x <<< j).toNat = y.toNat + x.toNat * 2 ^ j := by
  have hshift : (x <<< j).toNat = x.toNat <<< j := by
    rw [BitVec.toNat_shiftLeft, Nat.shiftLeft_eq, Nat.mod_eq_of_lt]
    calc x.toNat * 2 ^ j < 2 ^ (32 - j) * 2 ^ j := Nat.mul_lt_mul_of_pos_right hx (Nat.two_pow_pos j)
      _ = 2 ^ 32 := by rw [← Nat.pow_add, Nat.sub_add_cancel hj]
  rw [BitVec.toNat_or, hshift, Nat.or_comm, ← Nat.shiftLeft_add_eq_or_of_lt hy, Nat.shiftLeft_eq, Nat.add_comm]

theorem odd_iff : n &&& 1 ≠ 0 ↔ n.toNat % 2 = 1 := by
  have hone : (n &&& 1).toNat = n.toNat % 2 := by
    have hword : (1 : U32).toNat = 2 ^ 1 - 1 := rfl
    rw [BitVec.toNat_and, hword, Nat.and_two_pow_sub_one_eq_mod]
  rw [Ne, ← BitVec.toNat_inj, hone]
  have hzero : (0 : U32).toNat = 0 := rfl
  omega

theorem byte_toNat (b : Byte) : (b.setWidth 32).toNat = b.toNat := by
  rw [BitVec.toNat_setWidth, Nat.mod_eq_of_lt (Nat.lt_trans b.isLt (by decide))]

theorem byte_or (x y : Byte) : (x.setWidth 32 ||| y.setWidth 32 <<< 8 : U32).toNat = x.toNat + y.toNat * 2 ^ 8 := by
  have hx := x.isLt
  have hy := y.isLt
  rw [or_shifted (by rw [byte_toNat]; omega) (by rw [byte_toNat]; omega) (by omega), byte_toNat, byte_toNat]

theorem append_toNat {w w' : Nat} (x : BitVec w) (y : BitVec w') : (x ++ y).toNat = y.toNat + x.toNat * 2 ^ w' := by
  rw [BitVec.toNat_append, ← Nat.shiftLeft_add_eq_or_of_lt y.isLt, Nat.shiftLeft_eq, Nat.add_comm]

theorem four_bytes (b0 b1 b2 b3 : Byte) :
    (b0.setWidth 32 ||| b1.setWidth 32 <<< 8 ||| b2.setWidth 32 <<< 16 ||| b3.setWidth 32 <<< 24 : U32) = b3 ++ b2 ++ b1 ++ b0 := by
  have h0 := b0.isLt
  have h1 := b1.isLt
  have h2 := b2.isLt
  have h3 := b3.isLt
  have hthree : (b0.setWidth 32 ||| b1.setWidth 32 <<< 8 ||| b2.setWidth 32 <<< 16 : U32).toNat =
      b0.toNat + b1.toNat * 2 ^ 8 + b2.toNat * 2 ^ 16 := by
    rw [or_shifted (by rw [byte_toNat]; omega) (by rw [byte_or]; omega) (by omega), byte_or, byte_toNat]
  apply BitVec.eq_of_toNat_eq
  rw [or_shifted (by rw [byte_toNat]; omega) (by rw [hthree]; omega) (by omega), hthree, byte_toNat, append_toNat,
    append_toNat, append_toNat]
  omega

theorem nibble_toNat (b : Byte) : ((b.setWidth 32 : U32) &&& 0x0F).toNat = b.toNat % 16 := by
  have hmask : (0x0F : U32).toNat = 2 ^ 4 - 1 := rfl
  rw [BitVec.toNat_and, hmask, Nat.and_two_pow_sub_one_eq_mod, byte_toNat]

theorem shifted_toNat (b : Byte) : ((b.setWidth 32 : U32) >>> 4).toNat = b.toNat / 16 := by
  rw [BitVec.toNat_ushiftRight, byte_toNat, Nat.shiftRight_eq_div_pow]

theorem decode_eq (h : ∀ i < k.len.toNat, m (a + i) = f (k.offset n.toNat + i)) :
    (k.decode n m a).toNat = entryAt k f n.toNat := by
  unfold Kind.decode entryAt
  unfold Kind.offset at h
  cases k
  · have h0 : m (a + 0) = f (n.toNat + n.toNat / 2) := h 0 (by decide)
    have h1 : m (a + 1) = f (n.toNat + n.toNat / 2 + 1) := h 1 (by decide)
    dsimp only
    rw [h0, h1]
    generalize f (n.toNat + n.toNat / 2) = b0
    generalize f (n.toNat + n.toNat / 2 + 1) = b1
    have hb0 := b0.isLt
    have hb1 := b1.isLt
    by_cases hodd : n.toNat % 2 = 1
    · rw [if_pos (odd_iff.mpr hodd), if_pos hodd, BitVec.or_comm,
        or_shifted (by rw [byte_toNat]; omega) (by rw [shifted_toNat]; omega) (by omega), shifted_toNat, byte_toNat]
      omega
    · rw [if_neg (fun h => hodd (odd_iff.mp h)), if_neg hodd,
        or_shifted (by rw [nibble_toNat]; omega) (by rw [byte_toNat]; omega) (by omega), nibble_toNat, byte_toNat]
      omega
  · have h0 : m (a + 0) = f (n.toNat * 2) := h 0 (by decide)
    have h1 : m (a + 1) = f (n.toNat * 2 + 1) := h 1 (by decide)
    dsimp only
    rw [h0, h1, byte_or]
    unfold read16
    rw [append_toNat]
  · have h0 : m (a + 0) = f (n.toNat * 4) := h 0 (by decide)
    have h1 : m (a + 1) = f (n.toNat * 4 + 1) := h 1 (by decide)
    have h2 : m (a + 2) = f (n.toNat * 4 + 2) := h 2 (by decide)
    have h3 : m (a + 3) = f (n.toNat * 4 + 3) := h 3 (by decide)
    dsimp only
    unfold read32
    rw [h0, h1, h2, h3]
    generalize f (n.toNat * 4) = b0
    generalize f (n.toNat * 4 + 1) = b1
    generalize f (n.toNat * 4 + 2) = b2
    generalize f (n.toNat * 4 + 3) = b3
    rw [BitVec.toNat_and, four_bytes]
    have hmask : (0x0FFFFFFF : U32).toNat = 2 ^ 28 - 1 := rfl
    rw [hmask, Nat.and_two_pow_sub_one_eq_mod]

theorem low_kept (b : Byte) : (b &&& 0x0F#8 ||| (v <<< 4 &&& 0xF0#32).setWidth 8).toNat = b.toNat % 16 + v.toNat % 16 * 16 := by
  have hmask : 0xF0#32 = 0x0F#32 <<< 4 := rfl
  have hv : (v &&& 0x0F#32).toNat = v.toNat % 16 := by
    have hword : (0x0F#32).toNat = 2 ^ 4 - 1 := rfl
    rw [BitVec.toNat_and, hword, Nat.and_two_pow_sub_one_eq_mod]
  have hb : (b &&& 0x0F#8).toNat = b.toNat % 16 := by
    have hword : (0x0F#8).toNat = 2 ^ 4 - 1 := rfl
    rw [BitVec.toNat_and, hword, Nat.and_two_pow_sub_one_eq_mod]
  have hhigh : ((v <<< 4 &&& 0xF0#32).setWidth 8).toNat = (v.toNat % 16) <<< 4 := by
    rw [hmask, ← BitVec.shiftLeft_and_distrib, BitVec.toNat_setWidth, BitVec.toNat_shiftLeft, hv, Nat.shiftLeft_eq]
    omega
  rw [BitVec.toNat_or, hhigh, hb, Nat.or_comm, ← Nat.shiftLeft_add_eq_or_of_lt (Nat.mod_lt _ (by decide)), Nat.shiftLeft_eq]
  omega

theorem high_kept (b : Byte) :
    (b &&& 0xF0#8 ||| (v >>> 8 &&& 0x0F#32).setWidth 8).toNat = b.toNat / 16 * 16 + v.toNat / 256 % 16 := by
  have hv : ((v >>> 8 &&& 0x0F#32).setWidth 8).toNat = v.toNat / 256 % 16 := by
    have hword : (0x0F#32).toNat = 2 ^ 4 - 1 := rfl
    rw [BitVec.toNat_setWidth, BitVec.toNat_and, hword, Nat.and_two_pow_sub_one_eq_mod, BitVec.toNat_ushiftRight,
      Nat.shiftRight_eq_div_pow]
    omega
  have hb : (b &&& 0xF0#8).toNat = (b.toNat / 16) <<< 4 := by
    have hshift : ∀ b : Byte, b &&& 0xF0#8 = (b >>> 4) <<< 4 := by decide
    rw [hshift, BitVec.toNat_shiftLeft, BitVec.toNat_ushiftRight, Nat.shiftRight_eq_div_pow, Nat.shiftLeft_eq]
    have hlt := b.isLt
    omega
  rw [BitVec.toNat_or, hv, hb, ← Nat.shiftLeft_add_eq_or_of_lt (Nat.mod_lt _ (by decide)), Nat.shiftLeft_eq]

theorem word_byte {j : Nat} : ((v >>> j &&& 0xFF#32).setWidth 8).toNat = v.toNat / 2 ^ j % 256 := by
  have hword : (0xFF#32).toNat = 2 ^ 8 - 1 := rfl
  rw [BitVec.toNat_setWidth, BitVec.toNat_and, hword, Nat.and_two_pow_sub_one_eq_mod, BitVec.toNat_ushiftRight,
    Nat.shiftRight_eq_div_pow, Nat.mod_mod]

theorem encode_length (k : Kind) : (k.encode n m a v).length = k.len.toNat := by
  unfold Kind.encode
  cases k
  · dsimp only
    split <;> rfl
  · rfl
  · rfl

theorem encode_congr {b : Nat} (h : ∀ i < k.len.toNat, m (a + i) = f (b + i)) : k.encode n m a v = k.encode n f b v := by
  unfold Kind.encode
  cases k
  · have h0 : m (a + 0) = f (b + 0) := h 0 (by decide)
    have h1 : m (a + 1) = f (b + 1) := h 1 (by decide)
    rw [Nat.add_zero, Nat.add_zero] at h0
    dsimp only
    rw [h0, h1]
  · rfl
  · rfl

def Kind.put (k : Kind) (f : Nat → Byte) (n v : U32) : Nat → Byte :=
  writeBytes f (k.offset n.toNat) (k.encode n f (k.offset n.toNat) v)

theorem put_at {i : Nat} (hi : i < k.len.toNat) :
    k.put f n v (k.offset n.toNat + i) = (k.encode n f (k.offset n.toNat) v).getD i 0 :=
  writeBytes_inside (by rwa [encode_length])

theorem put_off {x : Nat} (h : x < k.offset n.toNat ∨ k.offset n.toNat + k.len.toNat ≤ x) : k.put f n v x = f x :=
  writeBytes_of_disjoint (by rwa [encode_length])

theorem put_self : entryAt k (k.put f n v) n.toNat = v.toNat % 2 ^ k.width := by
  have h0 := @put_at k n v f 0 (by cases k <;> decide)
  have h1 := @put_at k n v f 1 (by cases k <;> decide)
  unfold entryAt
  cases k
  · unfold Kind.offset Kind.encode at h0 h1
    dsimp only at h0 h1 ⊢
    rw [Nat.add_zero] at h0
    rw [h0, h1]
    by_cases hodd : n.toNat % 2 = 1
    · rw [if_pos (odd_iff.mpr hodd), if_pos hodd, List.getD_cons_zero, List.getD_cons_succ, List.getD_cons_zero, low_kept,
        BitVec.toNat_setWidth, BitVec.toNat_ushiftRight, Nat.shiftRight_eq_div_pow]
      have hwidth : Kind.fat12.width = 12 := rfl
      have hb := (f (n.toNat + n.toNat / 2)).isLt
      rw [hwidth]
      omega
    · rw [if_neg (fun h => hodd (odd_iff.mp h)), if_neg hodd, List.getD_cons_zero, List.getD_cons_succ, List.getD_cons_zero,
        high_kept]
      have hlow := @word_byte v 0
      rw [BitVec.ushiftRight_zero] at hlow
      have hwidth : Kind.fat12.width = 12 := rfl
      rw [hwidth, hlow]
      omega
  · unfold Kind.offset Kind.encode at h0 h1
    dsimp only at h0 h1 ⊢
    rw [Nat.add_zero] at h0
    unfold read16
    rw [append_toNat, h0, h1, List.getD_cons_zero, List.getD_cons_succ, List.getD_cons_zero, word_byte]
    have hlow := @word_byte v 0
    rw [BitVec.ushiftRight_zero] at hlow
    have hwidth : Kind.fat16.width = 16 := rfl
    rw [hwidth, hlow]
    omega
  · have h2 := @put_at .fat32 n v f 2 (by decide)
    have h3 := @put_at .fat32 n v f 3 (by decide)
    unfold Kind.offset Kind.encode at h0 h1 h2 h3
    dsimp only at h0 h1 h2 h3 ⊢
    rw [Nat.add_zero] at h0
    unfold read32
    rw [append_toNat, append_toNat, append_toNat, h0, h1, h2, h3]
    simp only [List.getD_cons_zero, List.getD_cons_succ]
    have hlow := @word_byte v 0
    rw [BitVec.ushiftRight_zero] at hlow
    have hwidth : Kind.fat32.width = 28 := rfl
    rw [hwidth, hlow, word_byte, word_byte, word_byte]
    omega

theorem put_other (h : n' ≠ n) : entryAt k (k.put f n v) n'.toNat = entryAt k f n'.toNat := by
  have hne : n'.toNat ≠ n.toNat := fun heq => h (BitVec.eq_of_toNat_eq heq)
  have hoff : ∀ x, x < k.offset n.toNat ∨ k.offset n.toNat + k.len.toNat ≤ x → k.put f n v x = f x := fun x hx => put_off hx
  unfold entryAt
  cases k
  · have h0 := @put_at .fat12 n v f 0 (by decide)
    have h1 := @put_at .fat12 n v f 1 (by decide)
    have hlen : Kind.fat12.len.toNat = 2 := rfl
    unfold Kind.offset at hoff h0 h1
    unfold Kind.encode at h0 h1
    rw [hlen] at hoff
    dsimp only at hoff h0 h1 ⊢
    rw [Nat.add_zero] at h0
    by_cases hodd : n.toNat % 2 = 1
    · rw [if_pos (odd_iff.mpr hodd)] at h0 h1
      by_cases hpair : n'.toNat + 1 = n.toNat
      · have hat : n.toNat + n.toNat / 2 = n'.toNat + n'.toNat / 2 + 1 := by omega
        have heven : ¬ n'.toNat % 2 = 1 := by omega
        rw [hat, List.getD_cons_zero] at h0
        rw [if_neg heven, if_neg heven, h0, hoff _ (by omega), low_kept]
        omega
      · rw [hoff _ (by omega), hoff _ (by omega)]
    · rw [if_neg (fun h => hodd (odd_iff.mp h))] at h0 h1
      by_cases hpair : n'.toNat = n.toNat + 1
      · have hat : n.toNat + n.toNat / 2 + 1 = n'.toNat + n'.toNat / 2 := by omega
        have hodd' : n'.toNat % 2 = 1 := by omega
        rw [hat, List.getD_cons_succ, List.getD_cons_zero] at h1
        rw [if_pos hodd', if_pos hodd', h1, hoff _ (by omega), high_kept]
        omega
      · rw [hoff _ (by omega), hoff _ (by omega)]
  · have hlen : Kind.fat16.len.toNat = 2 := rfl
    unfold Kind.offset at hoff
    rw [hlen] at hoff
    dsimp only at hoff ⊢
    rw [read16_congr fun x hlo hhi => hoff x (by omega)]
  · have hlen : Kind.fat32.len.toNat = 4 := rfl
    unfold Kind.offset at hoff
    rw [hlen] at hoff
    dsimp only at hoff ⊢
    rw [read32_congr fun x hlo hhi => hoff x (by omega)]

end Ezos.Fat
