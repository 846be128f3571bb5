import Ezos.Fs.Absolute

/-!
# Directories of the file system layer (`fs_change_dir`, `fs_read_dir`, `fs_read_dir_path`)

A mounted volume is seen through the lookups of its driver. A listing is recorded as the directory that
is listed; `none` is the answer -1.
-/

namespace Ezos.Fs

open Lib.Segments

set_option autoImplicit false

universe u

/-- `child` finds a name in a directory and `stat` tells directories, or fails. `root` is `none` on a
volume whose root cannot be read. `ownChange` is the answer of `exfat_change_dir` or `fat_change_dir`,
which keep a current directory of their own. -/
structure Volume (N : Type u) where
  root : Option N
  child : N → Str → Option N
  stat : N → Option Bool
  ownChange : Str → Bool

variable {N : Type u}

def walk (v : Volume N) (nameMax : Nat) : N → List Str → Option N
  | n, [] => some n
  | n, c :: cs =>
    if c.length > nameMax then none
    else
      match v.child n c with
      | none => none
      | some m => walk v nameMax m cs

def fromRoot (v : Volume N) (nameMax : Nat) (path : Str) : Option N :=
  match v.root with
  | none => none
  | some n => walk v nameMax n (segs slash path)

def fromSlash (v : Volume N) (nameMax : Nat) (path : Str) : Option N :=
  if path.head? = some slash then fromRoot v nameMax path else none

def e4Resolve (v : Volume N) (path : Str) : Option N := fromSlash v 255 path
def ntResolve (v : Volume N) (path : Str) : Option N := fromSlash v 255 path
def f2Resolve (v : Volume N) (path : Str) : Option N := fromSlash v 255 path
def erResolve (v : Volume N) (path : Str) : Option N := fromRoot v 255 path
def rsWalk (v : Volume N) (path : Str) : Option N := fromSlash v 120 path

def isDirOf (v : Volume N) (found : Option N) : Option Bool :=
  match found with
  | none => none
  | some n => v.stat n

def dirOf (v : Volume N) (found : Option N) : Option N :=
  match found with
  | none => none
  | some n => if v.stat n = some true then some n else none

def rsIsRootPath (path : Str) : Bool := path.all (· == slash)

def refsIsDir (v : Volume N) (path : Str) : Option Bool :=
  if rsIsRootPath path then v.root.map fun _ => true else isDirOf v (rsWalk v path)

def refsReadDir (v : Volume N) (path : Str) : Option N :=
  if rsIsRootPath path then v.root else dirOf v (rsWalk v path)

def roIsDir (v : Volume N) (s : State) (path : Str) : Option Bool :=
  match s.fsType with
  | .ext4 => isDirOf v (e4Resolve v path)
  | .ntfs => isDirOf v (ntResolve v path)
  | .f2fs => isDirOf v (f2Resolve v path)
  | .erofs => isDirOf v (erResolve v path)
  | .refs => refsIsDir v path
  | _ => none

/-- The directory that `ro_read_dir` lists. -/
def roReadDir (v : Volume N) (s : State) (path : Str) : Option N :=
  match s.fsType with
  | .ext4 => dirOf v (e4Resolve v path)
  | .ntfs => dirOf v (ntResolve v path)
  | .f2fs => dirOf v (f2Resolve v path)
  | .erofs => dirOf v (erResolve v path)
  | .refs => refsReadDir v path
  | _ => none

/-- What is listed: a name on the system volume, a directory of a driver that keeps its own current
directory (`none` for the current one), or a directory of the volume. -/
inductive Listed (N : Type u)
  | system (path : Str)
  | own (path : Option Str)
  | dir (n : N)

def fsReadDir (v : Volume N) (s : State) : Option (Listed N) :=
  if s.fsType = .exfat ∨ fsIsFat s then some (.own none)
  else if fsIsRo s then
    match fsRoAbs s [] 512 with
    | none => none
    | some full => (roReadDir v s full).map .dir
  else none

def fsReadDirPath (v : Volume N) (s : State) (path : Str) : Option (Listed N) :=
  match fsResolvePath s path 256 with
  | none => none
  | some full =>
    if sysvolIsPath full then some (.system full)
    else if s.fsType = .exfat ∨ fsIsFat s then some (.own (some full))
    else if fsIsRo s then (roReadDir v s full).map .dir
    else none

def afterWord (name : Str) : Str := (name.dropWhile (· == slash)).dropWhile (· != slash)

/-- `fs_change_dir` for a name on the system volume. -/
def enterSystem (s : State) (name : Str) : Bool × State :=
  match fsSetSysvolCwd name with
  | (false, c) => (false, { s with sysvolCwd := c })
  | (true, c) =>
    if (afterWord name).head? = some slash then (false, { s with sysvolCwd := [] })
    else (true, { s with sysvolCwd := c })

/-- `ro_cwd` after a path that was found to be a directory: the copy stops at 255 bytes. -/
def roCwdOf (abs : Str) : Str := abs.take 255

/-- `fs_change_dir` for a name on the disk, after the system volume was left. -/
def enterDisk (v : Volume N) (s : State) (name : Str) : Bool × State :=
  if s.fsType = .exfat ∨ fsIsFat s then (v.ownChange name, s)
  else if fsIsRo s then
    match fsRoAbs s name 512 with
    | none => (false, s)
    | some abs =>
      if roIsDir v s abs = some true then (true, { s with roCwd := roCwdOf abs }) else (false, s)
  else (false, s)

def fsChangeDir (v : Volume N) (s : State) (name : Str) : Bool × State :=
  if name = [] then (false, s)
  else if s.sysvolCwd ≠ [] ∧ isDot name then (true, s)
  else if s.sysvolCwd ≠ [] ∧ (name = [slash] ∨ isDotDot name) then (true, { s with sysvolCwd := [] })
  else if sysvolIsPath name then enterSystem s name
  else enterDisk v { s with sysvolCwd := [] } name

end Ezos.Fs

/-!
# The current directory of the drivers that take absolute paths

`ro_cwd` is a copy of the path that was last found to be a directory, and keeps 255 bytes of it.
`fs_change_dir` looks a name up under its absolute path and `fs_read_dir_path` as it is spelled.
-/

namespace Ezos.Fs

open Lib.Segments

universe u
variable {N : Type u} {v : Volume N} {s s' : State} {name p q abs full : Str} {n : N}

theorem rsIsRootPath_iff : rsIsRootPath p = true ↔ segs slash p = [] := by
  unfold rsIsRootPath
  rw [List.all_eq_true]
  constructor
  · intro h
    have hnone : ∀ c ∈ segs slash p, False := by
      intro c hc
      have hseg := isSeg_of_mem_segs hc
      have hsub := (mem_of_mem_segs hc)
      cases c with
      | nil => exact hseg.1 rfl
      | cons b c =>
        have hb := h b (hsub b List.mem_cons_self)
        exact hseg.2 (LawfulBEq.eq_of_beq hb ▸ List.mem_cons_self)
    exact List.eq_nil_iff_forall_not_mem.mpr hnone
  · intro h b hb
    by_contra hne
    have hseg := exists_segs_of_mem hb (fun heq => hne (beq_iff_eq.mpr heq))
    obtain ⟨c, hc, -⟩ := hseg
    rw [h] at hc
    contradiction

theorem fromSlash_congr {k : Nat} (hp : p.head? = some slash) (hq : q.head? = some slash)
    (h : segs slash p = segs slash q) : fromSlash v k p = fromSlash v k q := by
  rw [fromSlash, fromSlash, if_pos hp, if_pos hq, fromRoot, fromRoot, h]

theorem roReadDir_congr (hp : p.head? = some slash) (hq : q.head? = some slash)
    (h : segs slash p = segs slash q) : roReadDir v s p = roReadDir v s q := by
  have hroot : rsIsRootPath p = rsIsRootPath q := by
    rw [Bool.eq_iff_iff, rsIsRootPath_iff, rsIsRootPath_iff, h]
  unfold roReadDir refsReadDir e4Resolve ntResolve f2Resolve erResolve rsWalk
  rw [fromSlash_congr hp hq h, fromSlash_congr hp hq h, hroot, fromRoot, fromRoot, h]

theorem dirOf_of_isDirOf {found : Option N} (h : isDirOf v found = some true) :
    ∃ n, dirOf v found = some n := by
  cases found with
  | none => contradiction
  | some n =>
    have hstat : v.stat n = some true := h
    exact ⟨n, by rw [dirOf, if_pos hstat]⟩

theorem roReadDir_of_roIsDir (h : roIsDir v s p = some true) : ∃ n, roReadDir v s p = some n := by
  unfold roIsDir at h
  unfold roReadDir
  cases ht : s.fsType with
  | ext4 | ntfs | f2fs | erofs =>
    rw [ht] at h
    exact dirOf_of_isDirOf h
  | refs =>
    simp only [ht, refsIsDir, refsReadDir] at h ⊢
    by_cases hroot : rsIsRootPath p = true
    · rw [if_pos hroot] at h ⊢
      cases hv : v.root with
      | none =>
        rw [hv] at h
        contradiction
      | some n => exact ⟨n, rfl⟩
    · rw [if_neg hroot] at h ⊢
      exact dirOf_of_isDirOf h
  | none | exfat | fat12 | fat16 | fat32 =>
    rw [ht] at h
    contradiction

theorem roReadDir_relative (hne : p ≠ []) (hrel : p.head? ≠ some slash) (ht : s.fsType ≠ .erofs) :
    roReadDir v s p = none := by
  have hnone : ∀ k, fromSlash v k p = none := fun k => by rw [fromSlash, if_neg hrel]
  have hroot : ¬ rsIsRootPath p = true := by
    cases p with
    | nil => contradiction
    | cons b p =>
      intro h
      have hb := List.all_eq_true.mp h b List.mem_cons_self
      exact hrel (congrArg some (LawfulBEq.eq_of_beq hb))
  unfold roReadDir refsReadDir e4Resolve ntResolve f2Resolve rsWalk
  rw [hnone, hnone, if_neg hroot]
  cases h : s.fsType <;> first | rfl | contradiction

def Stays (s : State) (name : Str) : Prop :=
  (s.sysvolCwd ≠ [] ∧ (isDot name ∨ name = [slash] ∨ isDotDot name)) ∨ sysvolIsPath name = true

instance (s : State) (name : Str) : Decidable (Stays s name) := inferInstanceAs (Decidable (_ ∨ _))

theorem roCwd_enterSystem : (enterSystem s name).2.roCwd = s.roCwd ∧
    (enterSystem s name).2.fsType = s.fsType := by
  unfold enterSystem
  rcases fsSetSysvolCwd name with ⟨_ | _, c⟩
  · exact ⟨rfl, rfl⟩
  · dsimp only
    split <;> exact ⟨rfl, rfl⟩

theorem changeDir_stays (h : Stays s name) :
    (fsChangeDir v s name).2.roCwd = s.roCwd ∧ (fsChangeDir v s name).2.fsType = s.fsType := by
  unfold fsChangeDir
  by_cases hnil : name = []
  · rw [if_pos hnil]
    exact ⟨rfl, rfl⟩
  rw [if_neg hnil]
  by_cases hdot : s.sysvolCwd ≠ [] ∧ isDot name
  · rw [if_pos hdot]
    exact ⟨rfl, rfl⟩
  rw [if_neg hdot]
  by_cases hleave : s.sysvolCwd ≠ [] ∧ (name = [slash] ∨ isDotDot name)
  · rw [if_pos hleave]
    exact ⟨rfl, rfl⟩
  rw [if_neg hleave]
  have hsys : sysvolIsPath name = true := by
    rcases h with ⟨hcwd, hd | hrest⟩ | hsys
    · exact absurd ⟨hcwd, hd⟩ hdot
    · exact absurd ⟨hcwd, hrest⟩ hleave
    · exact hsys
  rw [if_pos hsys]
  exact roCwd_enterSystem

theorem changeDir_of_not_stays (h : ¬ Stays s name) (hne : name ≠ []) :
    fsChangeDir v s name = enterDisk v { s with sysvolCwd := [] } name := by
  unfold fsChangeDir
  rw [if_neg hne, if_neg, if_neg, if_neg]
  · exact fun hs => h (Or.inr hs)
  · exact fun hl => h (Or.inl ⟨hl.1, Or.inr hl.2⟩)
  · exact fun hd => h (Or.inl ⟨hd.1, Or.inl hd.2⟩)

theorem not_own (hro : fsIsRo s = true) : ¬ (s.fsType = .exfat ∨ fsIsFat s = true) := by
  revert hro
  unfold fsIsRo fsIsFat
  cases s.fsType <;> decide

theorem enterDisk_cases (hro : fsIsRo s = true) :
    enterDisk v s name = (false, s) ∨ ∃ abs, fsRoAbs s name 512 = some abs ∧
      roIsDir v s abs = some true ∧ enterDisk v s name = (true, { s with roCwd := roCwdOf abs }) := by
  unfold enterDisk
  rw [if_neg (not_own hro), if_pos hro]
  cases hq : fsRoAbs s name 512 with
  | none => exact Or.inl rfl
  | some abs =>
    by_cases hd : roIsDir v s abs = some true
    · exact Or.inr ⟨abs, rfl, hd, by simp only [if_pos hd]⟩
    · exact Or.inl (by simp only [if_neg hd])

/-- Either the current directory of the disk is kept, or the absolute path of the name was found to be
a directory and is recorded. -/
theorem changeDir_cases (hro : fsIsRo s = true) (h : ¬ Stays s name) :
    ((fsChangeDir v s name).1 = false ∧ (fsChangeDir v s name).2.roCwd = s.roCwd ∧
        (fsChangeDir v s name).2.fsType = s.fsType) ∨
      ∃ abs, fsRoAbs s name 512 = some abs ∧ roIsDir v s abs = some true ∧
        fsChangeDir v s name = (true, { s with sysvolCwd := [], roCwd := roCwdOf abs }) := by
  by_cases hne : name = []
  · have hnil : fsChangeDir v s name = (false, s) := by rw [fsChangeDir, if_pos hne]
    rw [hnil]
    exact Or.inl ⟨rfl, rfl, rfl⟩
  have hro' : fsIsRo { s with sysvolCwd := [] } = true := hro
  rw [changeDir_of_not_stays h hne]
  rcases @enterDisk_cases N v { s with sysvolCwd := [] } name hro' with hno | ⟨abs, habs, hdir, hyes⟩
  · rw [hno]
    exact Or.inl ⟨rfl, rfl, rfl⟩
  · exact Or.inr ⟨abs, habs, hdir, hyes⟩

def trailStep (v : Volume N) (t : State × Str) (name : Str) : State × Str :=
  let r := fsChangeDir v t.1 name
  (r.2, if r.1 = true ∧ ¬ Stays t.1 name then (fsRoAbs t.1 name 512).getD t.2 else t.2)

def trail (v : Volume N) (s : State) (names : List Str) : State × Str :=
  names.foldl (trailStep v) (s, s.roCwd)

def mounted (t : FsType) : State := { fsType := t, roCwd := [slash], sysvolCwd := [] }

def Fits (s : State) (name : Str) : Prop :=
  Stays s name ∨ ∀ abs, fsRoAbs s name 512 = some abs → abs.length ≤ 255

def FitsAlong (v : Volume N) : State → List Str → Prop
  | _, [] => True
  | s, name :: names => Fits s name ∧ FitsAlong v (fsChangeDir v s name).2 names

theorem fsType_changeDir (hro : fsIsRo s = true) : (fsChangeDir v s name).2.fsType = s.fsType := by
  by_cases h : Stays s name
  · exact (changeDir_stays h).2
  · rcases changeDir_cases (v := v) hro h with ⟨-, -, ht⟩ | ⟨abs, -, -, heq⟩
    · exact ht
    · rw [heq]

theorem fsIsRo_congr (h : s'.fsType = s.fsType) : fsIsRo s' = fsIsRo s := by
  unfold fsIsRo
  rw [h]

theorem trailStep_recorded {c : Str} (hro : fsIsRo s = true) (hfit : Fits s name) (hc : s.roCwd = c) :
    (trailStep v (s, c) name).1.roCwd = (trailStep v (s, c) name).2 := by
  unfold trailStep
  dsimp only
  by_cases h : Stays s name
  · rw [if_neg fun hn => hn.2 h, (changeDir_stays h).1, hc]
  · rcases changeDir_cases (v := v) hro h with ⟨hno, hcwd, -⟩ | ⟨abs, habs, -, heq⟩
    · rw [hno, if_neg fun hn => Bool.false_ne_true hn.1, hcwd, hc]
    · have hlen : abs.length ≤ 255 := (hfit.resolve_left h) abs habs
      rw [heq, if_pos ⟨rfl, h⟩, habs]
      exact List.take_of_length_le hlen

theorem trail_recorded {names : List Str} (hro : fsIsRo s = true) (hfit : FitsAlong v s names) :
    (trail v s names).1.roCwd = (trail v s names).2 := by
  unfold trail
  generalize hc : s.roCwd = c
  induction names generalizing s c with
  | nil => exact hc
  | cons name names ih =>
    obtain ⟨hname, hrest⟩ := hfit
    have hstep := trailStep_recorded (v := v) hro hname hc
    have hro' : fsIsRo (fsChangeDir v s name).2 = true := by
      rw [fsIsRo_congr (fsType_changeDir hro), hro]
    exact ih hro' hrest _ hstep

theorem fsIsRo_trail {names : List Str} (hro : fsIsRo s = true) : fsIsRo (trail v s names).1 = true := by
  unfold trail
  generalize s.roCwd = c
  induction names generalizing s c with
  | nil => exact hro
  | cons name names ih =>
    have hro' : fsIsRo (fsChangeDir v s name).2 = true := by
      rw [fsIsRo_congr (fsType_changeDir hro), hro]
    exact ih hro' _

theorem fsType_trail {t : FsType} {names : List Str} (hro : fsIsRo (mounted t) = true) :
    (trail v (mounted t) names).1.fsType = t := by
  suffices h : ∀ (s : State) (c : Str), fsIsRo s = true → s.fsType = t →
      (names.foldl (trailStep v) (s, c)).1.fsType = t from h (mounted t) _ hro rfl
  induction names with
  | nil => exact fun s c _ hs => hs
  | cons name names ih =>
    intro s c hs ht
    have hnext : (fsChangeDir v s name).2.fsType = s.fsType := fsType_changeDir hs
    exact ih _ _ (by rw [fsIsRo_congr hnext, hs]) (hnext.trans ht)

/-! ## Listing a path and changing to it -/

def destination (s : State) (name : Str) : Option Str :=
  if Stays s name then fsRoAbs s [] 512 else fsRoAbs s name 512

/-- The name is not on the system volume, and its driver finds under it, as it is spelled, the
directory that it finds under the absolute path. -/
def Agrees (v : Volume N) (s : State) (name : Str) : Prop :=
  ∃ full abs n, fsResolvePath s name 256 = some full ∧ sysvolIsPath full = false ∧
    destination s name = some abs ∧ roReadDir v s full = some n ∧ roReadDir v s abs = some n

def Sound (v : Volume N) (s : State) (name : Str) : Prop :=
  (Stays s name ∨ fsRoAbs s name 512 = some (fsChangeDir v s name).2.roCwd) ∧
    ∃ d, fsReadDirPath v s name = some d ∧ fsReadDir v (fsChangeDir v s name).2 = some d

theorem fsReadDir_of_cwd (hro : fsIsRo s = true) {d : Listed N} :
    fsReadDir v s = some d ↔ ∃ abs n, fsRoAbs s [] 512 = some abs ∧ roReadDir v s abs = some n ∧
      d = .dir n := by
  unfold fsReadDir
  rw [if_neg (not_own hro), if_pos hro]
  cases fsRoAbs s [] 512 with
  | none => simp
  | some abs =>
    cases hn : roReadDir v s abs with
    | none => simp [hn]
    | some n => simp [hn, eq_comm]

theorem fsReadDirPath_iff (hro : fsIsRo s = true) :
    fsReadDirPath v s name = some (.dir n) ↔ ∃ full, fsResolvePath s name 256 = some full ∧
      sysvolIsPath full = false ∧ roReadDir v s full = some n := by
  unfold fsReadDirPath
  cases fsResolvePath s name 256 with
  | none => simp
  | some full =>
    cases hsys : sysvolIsPath full with
    | true => simp [hsys]
    | false => simp [hsys, if_neg (not_own hro), hro]

theorem roReadDir_fsType (h : s'.fsType = s.fsType) : roReadDir v s' p = roReadDir v s p := by
  unfold roReadDir
  rw [h]

theorem fsRoAbs_after (hro : fsIsRo s = true) (hok : (fsChangeDir v s name).1 = true)
    (hfit : Fits s name) : fsRoAbs (fsChangeDir v s name).2 [] 512 = destination s name := by
  unfold destination
  by_cases h : Stays s name
  · rw [if_pos h]
    unfold fsRoAbs rawPath
    rw [(changeDir_stays h).1]
  · rw [if_neg h]
    rcases changeDir_cases (v := v) hro h with ⟨hno, -, -⟩ | ⟨abs, habs, -, heq⟩
    · rw [hno] at hok
      contradiction
    · have hlen : abs.length ≤ 255 := (hfit.resolve_left h) abs habs
      rw [heq, habs]
      exact fsRoAbs_again habs hlen (List.take_of_length_le hlen)

theorem recorded_iff_fits (hro : fsIsRo s = true) (hok : (fsChangeDir v s name).1 = true) :
    (Stays s name ∨ fsRoAbs s name 512 = some (fsChangeDir v s name).2.roCwd) ↔ Fits s name := by
  unfold Fits
  by_cases h : Stays s name
  · exact iff_of_true (Or.inl h) (Or.inl h)
  · rcases changeDir_cases (v := v) hro h with ⟨hno, -, -⟩ | ⟨abs, habs, -, heq⟩
    · rw [hno] at hok
      contradiction
    · rw [or_iff_right h, or_iff_right h, heq, habs, roCwdOf]
      constructor
      · intro hrec abs' habs'
        rw [Option.some.injEq] at hrec habs'
        rw [← habs', hrec, List.length_take]
        exact Nat.min_le_left _ _
      · intro hlen
        rw [List.take_of_length_le (hlen abs rfl)]

theorem sound_iff (hro : fsIsRo s = true) (hok : (fsChangeDir v s name).1 = true) :
    Sound v s name ↔ Fits s name ∧ Agrees v s name := by
  unfold Sound
  rw [recorded_iff_fits hro hok]
  refine and_congr_right fun hfit => ?_
  have hafter := fsRoAbs_after hro hok hfit
  have htype : (fsChangeDir v s name).2.fsType = s.fsType := fsType_changeDir hro
  have hro' : fsIsRo (fsChangeDir v s name).2 = true := by rw [fsIsRo_congr htype, hro]
  constructor
  · rintro ⟨d, hpath, hdir⟩
    obtain ⟨abs, n, habs, hn, rfl⟩ := (fsReadDir_of_cwd hro').mp hdir
    obtain ⟨full, hfull, hsys, hfn⟩ := (fsReadDirPath_iff hro).mp hpath
    rw [roReadDir_fsType htype] at hn
    rw [hafter] at habs
    exact ⟨full, abs, n, hfull, hsys, habs, hfn, hn⟩
  · rintro ⟨full, abs, n, hfull, hsys, habs, hfn, hn⟩
    refine ⟨.dir n, (fsReadDirPath_iff hro).mpr ⟨full, hfull, hsys, hfn⟩, ?_⟩
    rw [fsReadDir_of_cwd hro', hafter]
    exact ⟨abs, n, habs, (roReadDir_fsType htype).trans hn, rfl⟩

/-- An absolute name of at most 255 bytes without '.' and '..' that is not on the system volume; on
the system volume the name '/' only leaves it. -/
structure Plain (s : State) (name : Str) : Prop where
  absolute : name.head? = some slash
  segments : ∀ c ∈ segs slash name, isDot c = false ∧ isDotDot c = false
  outside : sysvolIsPath name = false
  stands : s.sysvolCwd = [] ∨ name ≠ [slash]
  short : name.length ≤ 255

theorem Plain.not_stays (h : Plain s name) : ¬ Stays s name := by
  have hdot : isDot name = false := by
    cases hd : isDot name with
    | false => rfl
    | true =>
      have heq : name = [dot] := LawfulBEq.eq_of_beq hd
      have habs := h.absolute
      rw [heq] at habs
      revert habs
      decide
  have hdd : isDotDot name = false := by
    cases hd : isDotDot name with
    | false => rfl
    | true =>
      have heq : name = [dot, dot] := LawfulBEq.eq_of_beq hd
      have habs := h.absolute
      rw [heq] at habs
      revert habs
      decide
  unfold Stays
  rw [hdot, hdd, h.outside]
  rcases h.stands with hs | hs
  · simp [hs]
  · simp [hs]

theorem Plain.fits_agrees (h : Plain s name) (hro : fsIsRo s = true)
    (hok : (fsChangeDir v s name).1 = true) : Fits s name ∧ Agrees v s name := by
  have hstays := h.not_stays
  rcases changeDir_cases (v := v) hro hstays with ⟨hno, -, -⟩ | ⟨abs, habs, hdir, -⟩
  · rw [hno] at hok
    contradiction
  have hraw : rawPath s name = name := by
    have hlen := h.short
    rw [rawPath, if_pos h.absolute, List.take_of_length_le (by omega)]
  have hdots : dots (segs slash name) = segs slash name := norm_of_pushed h.segments
  have hspelt : abs = spelt (segs slash name) := by
    rw [(fsRoAbs_some habs).1, hraw, hdots]
  have hlen : abs.length ≤ 255 := by
    rw [hspelt]
    by_cases hnil : segs slash name = []
    · rw [hnil]
      exact Nat.le_of_ble_eq_true rfl
    · rw [spelt_of_ne_nil hnil]
      obtain ⟨b, rest, rfl⟩ : ∃ b rest, name = b :: rest := by
        cases name with
        | nil => exact absurd segs_nil hnil
        | cons b rest => exact ⟨b, rest, rfl⟩
      have hb : b = slash := Option.some.inj h.absolute
      subst hb
      have hle : (join slash (segs slash rest)).length ≤ rest.length + 1 := length_join_segs_le rest
      have hshort := h.short
      rw [List.length_cons] at hshort
      rw [segs_cons_sep]
      omega
  have hresolve : fsResolvePath s name 256 = some name := by
    have hshort := h.short
    rw [fsResolvePath, if_pos (Or.inr (Or.inr (Or.inl h.absolute))), if_pos (by omega)]
  have hsegs : segs slash name = segs slash abs := by
    rw [hspelt, segs_spelt fun c hc => isSeg_of_mem_segs hc]
  obtain ⟨n, hn⟩ := roReadDir_of_roIsDir hdir
  have hhead : abs.head? = some slash := by rw [hspelt, head?_spelt]
  refine ⟨Or.inr fun abs' habs' => ?_, name, abs, n, hresolve, h.outside, ?_, ?_, hn⟩
  · rw [habs, Option.some.injEq] at habs'
    exact habs' ▸ hlen
  · rw [destination, if_neg hstays, habs]
  · rw [roReadDir_congr h.absolute hhead hsegs, hn]

theorem not_agrees_relative (hne : name ≠ []) (hrel : name.head? ≠ some slash)
    (hcwd : s.sysvolCwd = []) (ht : s.fsType ≠ .erofs) : ¬ Agrees v s name := by
  rintro ⟨full, abs, n, hfull, -, -, hn, -⟩
  have heq : full = name := by
    unfold fsResolvePath at hfull
    rw [if_pos (Or.inl hcwd)] at hfull
    by_cases hlen : name.length < 256
    · rw [if_pos hlen] at hfull
      exact (Option.some.inj hfull).symm
    · rw [if_neg hlen] at hfull
      contradiction
  rw [heq, roReadDir_relative hne hrel ht] at hn
  contradiction

/-- After a mount and any calls of `fs_change_dir`: while every accepted path has at most 255 bytes,
`ro_cwd` is the path last found to be a directory; and a further call that returns 0 is sound exactly when
its path fits and the driver finds the same directory under the name as it is spelled. -/
theorem changeDir_run {t : FsType} (v : Volume N) (ht : fsIsRo (mounted t) = true) (names : List Str) :
    (FitsAlong v (mounted t) names →
      (trail v (mounted t) names).1.roCwd = (trail v (mounted t) names).2) ∧
    ∀ name, (fsChangeDir v (trail v (mounted t) names).1 name).1 = true →
      (Sound v (trail v (mounted t) names).1 name ↔
        Fits (trail v (mounted t) names).1 name ∧ Agrees v (trail v (mounted t) names).1 name) ∧
      (Plain (trail v (mounted t) names).1 name → Sound v (trail v (mounted t) names).1 name) ∧
      (name.head? ≠ some slash → (trail v (mounted t) names).1.sysvolCwd = [] → t ≠ .erofs →
        ¬ Sound v (trail v (mounted t) names).1 name) := by
  have hro : fsIsRo (trail v (mounted t) names).1 = true := fsIsRo_trail ht
  refine ⟨trail_recorded ht, fun name hok => ?_⟩
  have hiff := sound_iff hro hok
  refine ⟨hiff, fun hplain => hiff.mpr (hplain.fits_agrees hro hok), fun hrel hcwd herofs hsound => ?_⟩
  have hne : name ≠ [] := by
    rintro rfl
    rw [fsChangeDir, if_pos rfl] at hok
    contradiction
  have htype : (trail v (mounted t) names).1.fsType ≠ .erofs := by
    rw [fsType_trail ht]
    exact herofs
  exact not_agrees_relative hne hrel hcwd htype (hiff.mp hsound).2

def volumeA : Volume Bool where
  root := some false
  child n c := if n = false ∧ c = [0x61] then some true else none
  stat _ := some true
  ownChange _ := false

theorem changeDir_run_root :
    (fsChangeDir volumeA (mounted .ext4) [0x2F, 0x61]).1 = true ∧
      (Sound volumeA (mounted .ext4) [0x2F, 0x61] ↔
        Fits (mounted .ext4) [0x2F, 0x61] ∧ Agrees volumeA (mounted .ext4) [0x2F, 0x61]) :=
  ⟨by decide, ((changeDir_run volumeA (t := .ext4) (by decide) []).2 [0x2F, 0x61] (by decide)).1⟩

theorem relative_listing_fails :
    (fsChangeDir volumeA (mounted .ext4) [0x61]).1 = true ∧
      fsReadDir volumeA (fsChangeDir volumeA (mounted .ext4) [0x61]).2 = some (.dir true) ∧
      fsReadDirPath volumeA (mounted .ext4) [0x61] = none := by
  refine ⟨by decide, by rfl, by rfl⟩

end Ezos.Fs
