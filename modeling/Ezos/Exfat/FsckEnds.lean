import Ezos.Exfat.DirView
import Ezos.Exfat.FindEntry
import Ezos.Exfat.Fsck
import Ezos.Lib.Unfold

/-!
# Does `exfat_fsck` come to an end?

While no fault strikes, the directories that one directory puts in the queue depend on the disk alone, and
the traversal is that of `Lib.Unfold` on the graph they make. No directory is recognised as seen before.
-/

namespace Ezos.Exfat

open Lib.Memory Lib.ByteBitmap Lib.Unfold

set_option autoImplicit false

variable {v v' : Vol} {s : FsckState} {buf buf' : Mem} {d limit : U32} {total off : Nat}

def setDirs (limit : U32) (buf : Mem) (totalBytes off : Nat) : Nat → List U32
  | 0 => []
  | fuel + 1 =>
    if off + 32 > totalBytes ∨ buf off = 0x00 then []
    else if isCritical (buf off) = false then setDirs limit buf totalBytes (off + 32) fuel
    else
      match fsckReadSet buf totalBytes off with
      | none => []
      | some e =>
        if e.isDir ∧ e.first ≥ 2 ∧ e.first < limit then
          e.first :: setDirs limit buf totalBytes (off + e.slots * 32) fuel
        else setDirs limit buf totalBytes (off + e.slots * 32) fuel

def subdirs (v : Vol) (d : U32) : List U32 :=
  setDirs v.clusterLimit (dirBytes v d) (dirLength v d) 0 (dirLength v d / 32 + 1)

theorem setDirs_past {fuel : Nat} (h : off + 32 > total) :
    setDirs limit buf total off fuel = [] := by
  cases fuel with
  | zero => rfl
  | succ fuel => rw [setDirs, if_pos (Or.inl h)]

theorem read32_congr_below {a n : Nat} (h : ∀ x, x < n → buf' x = buf x) (ha : a + 4 ≤ n) :
    read32 buf' a = read32 buf a := read32_congr fun x _ hx => h x (by omega)

theorem read64_congr_below {a n : Nat} (h : ∀ x, x < n → buf' x = buf x) (ha : a + 8 ≤ n) :
    read64 buf' a = read64 buf a := by
  unfold read64
  rw [read32_congr_below h (by omega), read32_congr_below h (by omega)]

theorem fsckReadSet_congr (h : ∀ x, x < total → buf' x = buf x)
    (hoff : off + 64 ≤ total) : fsckReadSet buf' total off = fsckReadSet buf total off := by
  unfold fsckReadSet secCount
  rw [h off (by omega), h (off + 32) (by omega), h (off + 33) (by omega), h (off + 1) (by omega),
    h (off + 4) (by omega), read32_congr_below h (by omega), read64_congr_below h (by omega),
    read32_congr_below h (by omega), read64_congr_below h (by omega)]

theorem fsckReadSet_last (hoff : total < off + 64) :
    fsckReadSet buf total off = none ∨
      ∃ e, fsckReadSet buf total off = some e ∧ e.isDir = false ∧ total < off + e.slots * 32 + 32 := by
  unfold fsckReadSet
  dsimp only
  split
  · rename_i h85
    refine Or.inl (if_pos ?_)
    by_contra hno
    obtain ⟨-, h2, -, h4⟩ := not_or.mp hno |>.imp_right fun h => by simpa [not_or] using h
    omega
  · refine Or.inr ?_
    split
    · exact ⟨_, rfl, rfl, by dsimp only; omega⟩
    · exact ⟨_, rfl, rfl, by dsimp only; omega⟩

theorem setDirs_last {fuel : Nat} (hoff : total < off + 64) : setDirs limit buf total off fuel = [] := by
  cases fuel with
  | zero => rfl
  | succ fuel =>
    unfold setDirs
    split
    · rfl
    split
    · exact setDirs_past (by omega)
    rcases @fsckReadSet_last buf total off hoff with hnone | ⟨e, he, hfile, hend⟩
    · simp only [hnone]
    · simp only [he, hfile, Bool.false_eq_true, false_and, if_false]
      exact setDirs_past (by omega)

theorem setDirs_congr (h : ∀ x, x < total → buf' x = buf x) {fuel : Nat} :
    setDirs limit buf' total off fuel = setDirs limit buf total off fuel := by
  induction fuel generalizing off with
  | zero => rfl
  | succ fuel ih =>
    by_cases hoff : off + 64 ≤ total
    · unfold setDirs
      simp only [h off (by omega), fsckReadSet_congr h hoff, ih]
    · rw [setDirs_last (Nat.lt_of_not_le hoff), setDirs_last (Nat.lt_of_not_le hoff)]

/-! ## The queue -/

def FsckState.waiting (s : FsckState) : List U32 := Lib.Ring.contents s.queue fsckMaxDirs s.head s.tail

structure Serving (v : Vol) (s : FsckState) : Prop where
  order : s.head ≤ s.tail
  room : s.tail - s.head ≤ fsckMaxDirs
  settles : Settles v s.vol v.disk

theorem length_waiting : s.waiting.length = s.tail - s.head := Lib.Ring.length_contents

theorem fsckChainLoop_calm (h : Calm v) {c need : U32} {nofat checkLen : Bool} {reach : Mem}
    {r : FsckReport} {steps left : Nat} :
    ∃ reach' r' v', fsckChainLoop v c need nofat checkLen reach r steps left = (reach', r', v') ∧
      Settles v v' v.disk := by
  induction left generalizing v c reach r steps with
  | zero =>
    unfold fsckChainLoop
    split
    · exact ⟨_, _, v, rfl, .refl h⟩
    · exact ⟨_, _, v, rfl, .refl h⟩
  | succ left ih =>
    unfold fsckChainLoop
    split
    · exact ⟨_, _, v, rfl, .refl h⟩
    · dsimp only
      split
      · split
        · exact ⟨_, _, v, rfl, .refl h⟩
        · exact ih h
      · obtain ⟨v1, hv1, hs1⟩ := exfatReadFatEntry_calm h c
        simp only [hv1]
        split
        · exact ⟨_, _, v1, rfl, hs1⟩
        · split
          · exact ⟨_, _, v1, rfl, hs1⟩
          · split
            · exact ⟨_, _, v1, rfl, hs1⟩
            · obtain ⟨reach', r', v2, hrun, hs2⟩ := @ih v1 (hs1.calm h) (fatView v c)
                (fsckMark reach r c).1 (fsckMark reach r c).2 (steps + 1)
              exact ⟨reach', r', v2, hrun, hs1.trans (hs1.disk ▸ hs2)⟩

theorem exfatFsckChain_calm (h : Calm v) {first need : U32} {nofat checkLen : Bool} {reach : Mem}
    {r : FsckReport} :
    ∃ reach' r' v', exfatFsckChain v first need nofat checkLen reach r = (reach', r', v') ∧
      Settles v v' v.disk := by
  unfold exfatFsckChain
  split
  · exact ⟨reach, r, v, rfl, .refl h⟩
  · exact fsckChainLoop_calm h

theorem fsckMarkSet_serving (h : Calm v) (hs : Serving v s) (e : FsckSet) :
    Serving v (fsckMarkSet s e) ∧ (fsckMarkSet s e).waiting = s.waiting := by
  unfold fsckMarkSet
  obtain ⟨reach, r, v1, hrun, hs1⟩ := @exfatFsckChain_calm s.vol (hs.settles.calm h) e.first
    (fsckNeed e s.vol.clusterSize) e.nofat (!e.isDir) s.reach s.report
  rw [hrun]
  exact ⟨⟨hs.order, hs.room, hs.settles.trans (hs.settles.disk ▸ hs1)⟩, rfl⟩

theorem fsckPush_cases (hs : Serving v s) (c : U32) :
    (s.waiting.length < fsckMaxDirs ∧ ∃ y, fsckPush s c = some y ∧ Serving v y ∧
      y.waiting = s.waiting ++ [c]) ∨
    (fsckMaxDirs ≤ s.waiting.length ∧ fsckPush s c = none) := by
  have horder := hs.order
  unfold fsckPush
  rw [length_waiting]
  by_cases hfull : s.tail - s.head ≥ fsckMaxDirs
  · exact Or.inr ⟨hfull, if_pos hfull⟩
  · rw [if_neg hfull]
    refine Or.inl ⟨Nat.lt_of_not_le hfull, _, rfl, ⟨Nat.le_succ_of_le horder, ?_, hs.settles⟩, ?_⟩
    · have hroom : s.tail + 1 - s.head ≤ fsckMaxDirs := by omega
      exact hroom
    · exact Lib.Ring.contents_push horder (Nat.lt_of_not_le hfull)

theorem fsckEntries_cases (h : Calm v) (hs : Serving v s) {fuel : Nat} :
    (s.waiting.length + (setDirs v.clusterLimit buf total off fuel).length ≤ fsckMaxDirs ∧
      ∃ y, fsckEntries s buf total off fuel = (true, y) ∧ Serving v y ∧
        y.waiting = s.waiting ++ setDirs v.clusterLimit buf total off fuel) ∨
    (fsckMaxDirs < s.waiting.length + (setDirs v.clusterLimit buf total off fuel).length ∧
      ∃ y, fsckEntries s buf total off fuel = (false, y)) := by
  have hroom : s.waiting.length + ([] : List U32).length ≤ fsckMaxDirs := by
    rw [length_waiting]
    exact hs.room
  induction fuel generalizing s off with
  | zero => exact Or.inl ⟨hroom, s, rfl, hs, (List.append_nil _).symm⟩
  | succ fuel ih =>
    unfold fsckEntries setDirs
    by_cases hend : off + 32 > total ∨ buf off = 0x00
    · rw [if_pos hend, if_pos hend]
      exact Or.inl ⟨hroom, s, rfl, hs, (List.append_nil _).symm⟩
    rw [if_neg hend, if_neg hend]
    by_cases hcrit : isCritical (buf off) = false
    · rw [if_pos hcrit, if_pos hcrit]
      exact ih hs hroom
    rw [if_neg hcrit, if_neg hcrit]
    rcases fsckReadSet buf total off with _ | e
    · exact Or.inl ⟨hroom, _, rfl, ⟨hs.order, hs.room, hs.settles⟩, (List.append_nil _).symm⟩
    · dsimp only
      obtain ⟨hmark, hwait⟩ := fsckMarkSet_serving h hs e
      rw [← hwait] at hroom ⊢
      generalize fsckMarkSet s e = t at hmark hroom ⊢
      rw [hmark.settles.clusterLimit]
      by_cases hsub : e.isDir = true ∧ e.first ≥ 2 ∧ e.first < v.clusterLimit
      · rw [if_pos hsub, if_pos hsub, List.length_cons]
        rcases fsckPush_cases hmark e.first with ⟨hlt, y, hy, hys, hpush⟩ | ⟨hfull, hnone⟩
        · rw [hy]
          have hnext := @ih y (off + e.slots * 32) hys (by rw [length_waiting]; exact hys.room)
          rw [hpush, List.length_append, List.length_singleton, List.append_assoc] at hnext
          rcases hnext with ⟨hle, z, hz⟩ | ⟨hgt, z, hz⟩
          · exact Or.inl ⟨by omega, z, hz⟩
          · exact Or.inr ⟨by omega, z, hz⟩
        · rw [hnone]
          exact Or.inr ⟨by omega, t, rfl⟩
      · rw [if_neg hsub, if_neg hsub]
        exact ih hmark hroom

theorem fsckBfs_bare {u : Vol} {dirbuf dirbuf' : Mem} {n fuel : Nat} (hlt : s.head < s.tail)
    (hroom : s.tail - s.head ≤ fsckMaxDirs) (hd : s.queue (s.head % fsckMaxDirs) = d)
    (hrun : exfatReadDirChain s.vol d dirbuf = (n, dirbuf', u)) (hn : n = 0) :
    fsckBfs s dirbuf (fuel + 1) = fsckBfs { s with vol := u, head := s.head + 1 } dirbuf' fuel := by
  subst hd
  rw [fsckBfs, if_pos hlt, if_neg (Nat.not_lt.mpr hroom)]
  dsimp only
  rw [hrun]
  dsimp only
  rw [if_pos hn]

theorem fsckBfs_listed {u : Vol} {dirbuf dirbuf' : Mem} {n fuel : Nat} {ok : Bool} {y : FsckState} (hlt : s.head < s.tail)
    (hroom : s.tail - s.head ≤ fsckMaxDirs) (hd : s.queue (s.head % fsckMaxDirs) = d)
    (hrun : exfatReadDirChain s.vol d dirbuf = (n, dirbuf', u)) (hn : n ≠ 0)
    (hy : fsckEntries { s with vol := u, head := s.head + 1 } dirbuf' (n * u.clusterSize) 0
      (n * u.clusterSize / 32 + 1) = (ok, y)) :
    fsckBfs s dirbuf (fuel + 1) = if ok then fsckBfs y dirbuf' fuel else some (false, y) := by
  subst hd
  rw [fsckBfs, if_pos hlt, if_neg (Nat.not_lt.mpr hroom)]
  dsimp only
  rw [hrun]
  dsimp only
  rw [if_neg hn, hy]
  cases ok with
  | true => rfl
  | false => rfl

theorem fsckBfs_eq_none_iff (h : Calm v) (hs : Serving v s) {dirbuf : Mem} {fuel : Nat} :
    fsckBfs s dirbuf fuel = none ↔ serve (subdirs v) fsckMaxDirs fuel s.waiting = none := by
  induction fuel generalizing s dirbuf with
  | zero => exact iff_of_true rfl rfl
  | succ fuel ih =>
    by_cases hlt : s.head < s.tail
    · obtain ⟨d, hd⟩ : ∃ d, s.queue (s.head % fsckMaxDirs) = d := ⟨_, rfl⟩
      obtain ⟨buf, u, hread, hsu, hbytes⟩ := exfatReadDirChain_calm (hs.settles.calm h) d dirbuf
      have hcons : s.waiting = s.queue (s.head % fsckMaxDirs) ::
          FsckState.waiting { s with vol := u, head := s.head + 1 } := Lib.Ring.contents_eq_cons hlt
      have hsettles : Settles v u v.disk := hs.settles.trans (hs.settles.disk ▸ hsu)
      rw [dirClusters_congr hs.settles] at hread
      rw [dirLength_congr hs.settles, dirBytes_congr hs.settles] at hbytes
      have hroom := hs.room
      have hserve : Serving v { s with vol := u, head := s.head + 1 } :=
        ⟨hlt, Nat.le_trans (Nat.sub_le_sub_left (Nat.le_succ _) _) hroom, hsettles⟩
      have hkids : setDirs v.clusterLimit buf (dirLength v d) 0 (dirLength v d / 32 + 1) = subdirs v d :=
        setDirs_congr hbytes
      rw [hcons, hd, serve]
      have hfit := hserve.room
      rw [← length_waiting] at hfit
      by_cases hzero : (dirClusters v d).length = 0
      · -- nothing of the directory can be read
        have hempty : subdirs v d = [] := by
          apply setDirs_past
          rw [dirLength, hzero, Nat.zero_mul]
          omega
        rw [fsckBfs_bare hlt hroom hd hread hzero, hempty, List.append_nil, if_neg (by exact Nat.not_lt.mpr hfit)]
        exact ih hserve
      · have hcases := @fsckEntries_cases v _ buf (dirLength v d) 0 h hserve (dirLength v d / 32 + 1)
        rw [hkids] at hcases
        rcases hcases with ⟨hle, y, hy, hys, hwait⟩ | ⟨hgt, y, hy⟩
        · rw [dirLength, ← hsettles.clusterSize] at hy
          rw [fsckBfs_listed hlt hroom hd hread hzero hy, if_pos rfl, if_neg (Nat.not_lt.mpr hle)]
          refine (ih hys).trans ?_
          rw [hwait]
        · rw [dirLength, ← hsettles.clusterSize] at hy
          rw [fsckBfs_listed hlt hroom hd hread hzero hy, if_neg Bool.false_ne_true, if_pos hgt]
          exact iff_of_false (fun hno => by contradiction) (fun hno => by contradiction)
    · have hnil : s.waiting = [] := Lib.Ring.contents_eq_nil (Nat.le_of_not_lt hlt)
      rw [fsckBfs, if_neg hlt, hnil, serve]
      exact iff_of_false (fun hno => by contradiction) (fun hno => by contradiction)

def bitmapReadable (v : Vol) (bmBytes cur off : Nat) : Nat → Bool
  | 0 => true
  | guard + 1 =>
    if off < bmBytes ∧ cur ≥ 2 ∧ cur < v.clusterLimit.toNat then
      decide (clusterReadable v (BitVec.ofNat 32 cur)) &&
        (decide (fatView v (BitVec.ofNat 32 cur) ≥ 0xFFFFFFF8) ||
          bitmapReadable v bmBytes (fatView v (BitVec.ofNat 32 cur)).toNat
            (off + min (bmBytes - off) v.clusterSize) guard)
    else true

theorem bitmapReadable_congr (h : Settles v v' v.disk) {bm cur guard : Nat} :
    bitmapReadable v' bm cur off guard = bitmapReadable v bm cur off guard := by
  induction guard generalizing cur off with
  | zero => rfl
  | succ guard ih =>
    simp only [bitmapReadable, h.clusterLimit, h.clusterSize, clusterReadable_congr h, fatView_congr h, ih]

theorem readBitmap_calm (h : Calm v) {bm cur guard : Nat} {alloc dirbuf : Mem} :
    ∃ alloc' dirbuf' v', readBitmap v bm cur off alloc dirbuf guard = (alloc', dirbuf', v') ∧
      Settles v v' v.disk ∧ (alloc' = none ↔ bitmapReadable v bm cur off guard = false) := by
  have hdone : ∀ {a : Mem}, (some a = none ↔ true = false) := fun {a} =>
    iff_of_false (fun hno => by contradiction) (fun hno => by contradiction)
  induction guard generalizing v cur off alloc dirbuf with
  | zero => exact ⟨_, dirbuf, v, rfl, .refl h, hdone⟩
  | succ guard ih =>
    unfold readBitmap bitmapReadable
    by_cases hgo : off < bm ∧ cur ≥ 2 ∧ cur < v.clusterLimit.toNat
    · rw [if_pos hgo, if_pos hgo]
      have hnat : (BitVec.ofNat 32 cur).toNat = cur := by
        rw [BitVec.toNat_ofNat]
        exact Nat.mod_eq_of_lt (Nat.lt_trans hgo.2.2 v.clusterLimit.isLt)
      have hvalid : exfatClusterValid v (BitVec.ofNat 32 cur) = true := by
        have h2 : BitVec.ofNat 32 cur ≥ 2 := BitVec.le_def.mpr (by rw [hnat]; exact hgo.2.1)
        have hlim : BitVec.ofNat 32 cur < v.clusterLimit := BitVec.lt_def.mpr (by rw [hnat]; exact hgo.2.2)
        rw [exfatClusterValid, decide_eq_true h2, decide_eq_true hlim, Bool.true_and]
      generalize BitVec.ofNat 32 cur = c at hvalid
      by_cases hread : clusterReadable v c
      · obtain ⟨buf, hbuf, -⟩ := exfatReadCluster_calm h hvalid hread dirbuf 0
        obtain ⟨v1, hv1, hs1⟩ := exfatReadFatEntry_calm h c
        simp only [hbuf, hv1]
        rw [decide_eq_true hread, Bool.true_and]
        by_cases heoc : fatView v c ≥ 0xFFFFFFF8
        · rw [if_pos heoc, decide_eq_true heoc, Bool.true_or]
          exact ⟨_, buf, v1, rfl, hs1, hdone⟩
        · rw [if_neg heoc, decide_eq_false heoc, Bool.false_or]
          obtain ⟨alloc', dirbuf', v2, hrun, hs2, hiff⟩ := @ih v1 (off + min (bm - off) v.clusterSize)
            (hs1.calm h) (fatView v c).toNat (copyIn alloc off (min (bm - off) v.clusterSize) buf) buf
          rw [bitmapReadable_congr hs1] at hiff
          exact ⟨alloc', dirbuf', v2, hrun, hs1.trans (hs1.disk ▸ hs2), hiff⟩
      · obtain ⟨buf, hbuf, -⟩ := exfatReadCluster_fails h (Or.inr hread) dirbuf 0
        simp only [hbuf]
        rw [decide_eq_false hread, Bool.false_and]
        exact ⟨none, buf, v, rfl, .refl h, iff_of_true rfl rfl⟩
    · rw [if_neg hgo, if_neg hgo]
      exact ⟨_, dirbuf, v, rfl, .refl h, hdone⟩

structure Starts (v : Vol) (m : FsckBuffers) : Prop where
  ready : v.mount.ready ≠ false
  clusters : v.info.clusterCount ≠ 0
  reach : m.reach ≠ none
  alloc : m.alloc ≠ none
  dirbuf : m.dirbuf ≠ none
  queue : m.queue ≠ none
  bitmap : bitmapReadable v (bmBytes v).toNat v.mount.bitmapCluster.toNat 0
    (v.clusterLimit.toNat + 1) ≠ false

theorem fsckRun_eq_none_iff (h : Calm v) {r : FsckReport} {reach alloc dirbuf : Mem} {queue : Nat → U32}
    {fuel : Nat} :
    fsckRun v r reach alloc dirbuf queue fuel = none ↔
      bitmapReadable v (bmBytes v).toNat v.mount.bitmapCluster.toNat 0 (v.clusterLimit.toNat + 1) ≠ false ∧
        serve (subdirs v) fsckMaxDirs fuel [v.info.rootDirCluster] = none := by
  unfold fsckRun
  dsimp only
  obtain ⟨alloc', dirbuf', v1, hbm, hs1, hiff⟩ := @readBitmap_calm v 0 h (bmBytes v).toNat
    v.mount.bitmapCluster.toNat (v.clusterLimit.toNat + 1) (fill alloc 0 (bmBytes v).toNat 0) dirbuf
  rw [hbm, ne_eq, ← hiff]
  cases alloc' with
  | none => simp
  | some alloc' =>
    simp only [hs1.info]
    obtain ⟨reach', r', v2, hchain, hs2⟩ := @exfatFsckChain_calm v1 (hs1.calm h) v.info.rootDirCluster 0 false
      false (fill reach 0 (bmBytes v).toNat 0) r
    simp only [hchain]
    obtain ⟨s, hs⟩ : ∃ s : FsckState,
        s = { vol := v2, reach := reach', report := r',
              queue := Lib.Ring.put queue 0 v.info.rootDirCluster, head := 0, tail := 1 } := ⟨_, rfl⟩
    have hserving : Serving v s := by
      rw [hs]
      exact ⟨Nat.zero_le 1, Nat.le_of_ble_eq_true rfl, hs1.trans (hs1.disk ▸ hs2)⟩
    have hwait : s.waiting = [v.info.rootDirCluster] := by
      have hpush := @Lib.Ring.contents_push U32 queue fsckMaxDirs 0 0 v.info.rootDirCluster
        (Nat.le_refl 0) (by decide)
      rw [Lib.Ring.contents_eq_nil (Nat.le_refl 0)] at hpush
      rw [hs]
      exact hpush
    rw [← hwait, ← @fsckBfs_eq_none_iff v _ h hserving dirbuf']
    rw [← hs]
    rcases fsckBfs s dirbuf' fuel with _ | ⟨_ | _, y⟩ <;> simp

theorem exfatFsck_eq_none_iff (h : Calm v) {r : FsckReport} {m : FsckBuffers} {fuel : Nat} :
    exfatFsck v r m fuel = none ↔
      Starts v m ∧ serve (subdirs v) fsckMaxDirs fuel [v.info.rootDirCluster] = none := by
  have hidle : ∀ {x : Int × FsckReport × Vol} {P : Prop}, ¬ Starts v m → (some x = none ↔ Starts v m ∧ P) :=
    fun hno => iff_of_false (fun heq => by contradiction) (fun hand => hno hand.1)
  unfold exfatFsck
  by_cases hready : v.mount.ready = false
  · rw [if_pos hready]
    exact hidle fun hst => hst.ready hready
  rw [if_neg hready]
  dsimp only
  by_cases hzero : v.info.clusterCount = 0
  · rw [if_pos hzero]
    exact hidle fun hst => hst.clusters hzero
  rw [if_neg hzero]
  rcases hreach : m.reach with _ | reach
  · exact hidle fun hst => hst.reach hreach
  rcases halloc : m.alloc with _ | alloc
  · exact hidle fun hst => hst.alloc halloc
  rcases hdirbuf : m.dirbuf with _ | dirbuf
  · exact hidle fun hst => hst.dirbuf hdirbuf
  rcases hqueue : m.queue with _ | queue
  · exact hidle fun hst => hst.queue hqueue
  dsimp only
  rw [fsckRun_eq_none_iff h]
  constructor
  · rintro ⟨hbm, hrun⟩
    have hstarts : Starts v m := by
      refine ⟨hready, hzero, ?_, ?_, ?_, ?_, hbm⟩
      · simp [hreach]
      · simp [halloc]
      · simp [hdirbuf]
      · simp [hqueue]
    exact ⟨hstarts, hrun⟩
  · exact fun hall => ⟨hall.1.bitmap, hall.2⟩

/-- The check comes to an end if and only if it never gets to the traversal, or no directory below the root
contains itself, or the queue overflows before that goes on for ever. -/
theorem exfatFsck_ends_iff (v : Vol) (h : Calm v) (r : FsckReport) (m : FsckBuffers) :
    (∃ fuel, exfatFsck v r m fuel ≠ none) ↔
      ¬ Starts v m ∨ ¬ CycleBelow (subdirs v) v.info.rootDirCluster ∨
        Overflows (subdirs v) fsckMaxDirs v.info.rootDirCluster := by
  have hall : (∀ fuel, exfatFsck v r m fuel = none) ↔
      Starts v m ∧ Never (subdirs v) fsckMaxDirs [v.info.rootDirCluster] := by
    constructor
    · exact fun hnone => ⟨((exfatFsck_eq_none_iff h).mp (hnone 0)).1,
        fun fuel => ((exfatFsck_eq_none_iff h).mp (hnone fuel)).2⟩
    · exact fun hrun fuel => (exfatFsck_eq_none_iff h).mpr ⟨hrun.1, hrun.2 fuel⟩
  have hfinite : Finite U32 := Finite.of_injective BitVec.toFin fun _ _ => BitVec.eq_of_toFin_eq
  rw [never_iff_cycle] at hall
  have hends : (∃ fuel, exfatFsck v r m fuel ≠ none) ↔ ¬ ∀ fuel, exfatFsck v r m fuel = none :=
    not_forall.symm
  rw [hends, hall]
  simp only [not_and_or, not_not]

theorem oneDirVol_calm (dir : Mem) : Calm (oneDirVol dir) :=
  ⟨fun f hf => by contradiction, fun s hs => by contradiction⟩

def selfDir : Mem :=
  writeBytes (writeBytes (writeBytes (writeBytes zeros 0 [0x85, 0x02, 0, 0, attrDirectory]) 32 [0xC0]) 52 [2])
    64 [0xC1]

def noReport : FsckReport :=
  { clustersTotal := 0, badChain := 0, loop := 0, truncated := 0, crosslink := 0, orphan := 0,
    freeButUsed := 0, badEntry := 0, firstBad := [] }

def blankBuffers : FsckBuffers :=
  { reach := some zeros, alloc := some zeros, dirbuf := some zeros, queue := some fun _ => 0 }

theorem selfDir_subdirs : subdirs (oneDirVol selfDir) 2 = [2] := by decide

theorem selfDir_starts : Starts (oneDirVol selfDir) blankBuffers :=
  ⟨by decide, by decide, by simp [blankBuffers], by simp [blankBuffers], by simp [blankBuffers],
    by simp [blankBuffers], by decide⟩

theorem selfDir_serve (fuel : Nat) : serve (subdirs (oneDirVol selfDir)) fsckMaxDirs fuel [2] = none := by
  induction fuel with
  | zero => rfl
  | succ fuel ih =>
    rw [serve, selfDir_subdirs, if_neg (by decide)]
    exact ih

theorem exfatFsck_selfDir :
    ¬ ∃ fuel, exfatFsck (oneDirVol selfDir) noReport blankBuffers fuel ≠ none := by
  rintro ⟨fuel, hend⟩
  apply hend
  rw [exfatFsck_eq_none_iff (oneDirVol_calm selfDir)]
  exact ⟨selfDir_starts, selfDir_serve fuel⟩

theorem exfatFsck_ends_of_oneDir :
    (∃ fuel, exfatFsck (oneDirVol zeros) noReport blankBuffers fuel ≠ none) ↔
      ¬ Starts (oneDirVol zeros) blankBuffers ∨
        ¬ CycleBelow (subdirs (oneDirVol zeros)) (oneDirVol zeros).info.rootDirCluster ∨
        Overflows (subdirs (oneDirVol zeros)) fsckMaxDirs (oneDirVol zeros).info.rootDirCluster :=
  exfatFsck_ends_iff (oneDirVol zeros) (oneDirVol_calm zeros) noReport blankBuffers

end Ezos.Exfat
