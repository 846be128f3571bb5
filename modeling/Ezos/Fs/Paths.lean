import Ezos.Types
import Ezos.Lib.Segments

/-!
# Names in the file system layer (`kernel/fs.c`, `kernel/sysvol.c`)

A string is the list of its bytes before the terminator. What the layer asks of a driver is recorded
as the list of its calls; `none` is the answer -1 that no driver is asked for.
-/

namespace Ezos.Fs

open Lib.Segments

set_option autoImplicit false

abbrev Str := List U8

def slash : U8 := 0x2F
def dot : U8 := 0x2E
def blank : U8 := 0x20

inductive FsType
  | none | exfat | fat12 | fat16 | fat32 | ext4 | ntfs | f2fs | erofs | refs
deriving DecidableEq, Repr

/-- `fs_type_cur`, `ro_cwd` and `g_sysvol_cwd`. -/
structure State where
  fsType : FsType
  roCwd : Str
  sysvolCwd : Str

def fsIsFat (s : State) : Bool := decide (s.fsType = .fat12 ∨ s.fsType = .fat16 ∨ s.fsType = .fat32)

def fsIsRo (s : State) : Bool :=
  decide (s.fsType = .ext4 ∨ s.fsType = .ntfs ∨ s.fsType = .f2fs ∨ s.fsType = .erofs ∨ s.fsType = .refs)

def svLower (c : U8) : U8 := if 0x41 ≤ c ∧ c ≤ 0x5A then c + 32 else c

def isGap (c : U8) : Bool := c == slash || c == blank

def svSkip (p : Str) : Str := p.dropWhile isGap

/-- The loop of `sv_seg_is`: what follows `seg` in `p`. -/
def svMatch : Str → Str → Option Str
  | p, [] => some p
  | [], _ :: _ => none
  | c :: p, d :: seg => if svLower c = svLower d then svMatch p seg else none

def svSegIs (p seg : Str) : Bool :=
  match svSkip p with
  | [] => false
  | c :: p =>
    match svMatch (c :: p) seg with
    | none => false
    | some [] => true
    | some (d :: _) => isGap d

def binName : Str := [0x62, 0x69, 0x6E]
def systemName : Str := [0x73, 0x79, 0x73, 0x74, 0x65, 0x6D]

def sysvolIsPath (path : Str) : Bool :=
  if path = [] then false else svSegIs path binName || svSegIs path systemName

def rawPath (s : State) (name : Str) : Str :=
  if name.head? = some slash then name.take 511
  else
    let cwd := s.roCwd.take 511
    let cwd := if cwd ≠ [] ∧ cwd.getLast? ≠ some slash ∧ cwd.length < 511 then cwd ++ [slash] else cwd
    (cwd ++ name).take 511

def isDot (c : Str) : Bool := c == [dot]
def isDotDot (c : Str) : Bool := c == [dot, dot]

def normSegs : List Str → List Str → Option (List Str)
  | st, [] => some st
  | st, c :: cs =>
    if isDot c then normSegs st cs
    else if isDotDot c then normSegs st.dropLast cs
    else if st.length ≥ 64 then none
    else normSegs (st ++ [c]) cs

def emitSegs (outsz : Nat) (out : Str) : List Str → Option Str
  | [] => some out
  | c :: cs => if out.length + c.length + 1 ≥ outsz then none else emitSegs outsz (out ++ slash :: c) cs

def fsRoAbs (s : State) (name : Str) (outsz : Nat) : Option Str :=
  match normSegs [] (segs slash (rawPath s name)) with
  | none => none
  | some st =>
    match emitSegs outsz [] st with
    | none => none
    | some [] => if outsz < 2 then none else some [slash]
    | some (c :: out) => some (c :: out)

def fsSetSysvolCwd (dir : Str) : Bool × Str :=
  match dir.dropWhile (· == slash) with
  | [] => (true, [])
  | c :: p =>
    let word := (c :: p).takeWhile (· != slash)
    if word.length > 6 then (false, []) else (true, slash :: word.map svLower)

def fsResolvePath (s : State) (name : Str) (outsz : Nat) : Option Str :=
  if s.sysvolCwd = [] ∨ name = [] ∨ name.head? = some slash ∨ isDot name ∨ isDotDot name then
    if name.length < outsz then some name else none
  else if s.sysvolCwd.length + 1 + name.length + 1 > outsz then none
  else some (s.sysvolCwd ++ slash :: name)

inductive Call
  | createFile (path : Str) (data : List U8)
  | deleteFile (path : Str)
  | mkdir (path : Str)
  | rmdir (path : Str)
deriving DecidableEq

def roAsk (s : State) (full : Str) (ask : Str → Call) : Option (List Call) :=
  match fsRoAbs s full 512 with
  | none => none
  | some abs => if s.fsType = .erofs then none else some [ask abs]

def fsCreateFile (s : State) (name : Str) (data : List U8) : Option (List Call) :=
  match fsResolvePath s name 256 with
  | none => none
  | some full =>
    if sysvolIsPath full then none
    else if s.fsType = .none then none
    else if s.fsType = .exfat ∨ fsIsFat s then some [.deleteFile full, .createFile full data]
    else if fsIsRo s then roAsk s full (.createFile · data)
    else none

/-- The common shape of `fs_delete_file`, `fs_mkdir` and `fs_rmdir`. -/
def fsAsk (s : State) (name : Str) (ask : Str → Call) : Option (List Call) :=
  match fsResolvePath s name 256 with
  | none => none
  | some full =>
    if sysvolIsPath full then none
    else if s.fsType = .exfat ∨ fsIsFat s then some [ask full]
    else if fsIsRo s then roAsk s full ask
    else none

def fsDeleteFile (s : State) (name : Str) : Option (List Call) := fsAsk s name .deleteFile
def fsMkdir (s : State) (name : Str) : Option (List Call) := fsAsk s name .mkdir
def fsRmdir (s : State) (name : Str) : Option (List Call) := fsAsk s name .rmdir

end Ezos.Fs

/-!
# The path walkers of the exFAT and FAT drivers (`kernel/exfat.c`, `kernel/fat.c`)

Both drivers have a walker for names (`resolve_dir`) and one for the current directory (`change_dir`).
The loops read the segments of the path and keep 127 bytes of each. What a directory holds is the
argument `find`: the first cluster of the entry under a name, and whether it is a directory.
-/

namespace Ezos.Fs

open Lib.Segments

abbrev Find := U32 → Str → Option (U32 × Bool)

/-- The current directory of a driver: its cluster, `dir_stack` below it with the nearest parent first,
and `cwd_path`. -/
structure Cwd where
  ready : Bool
  root : U32
  cur : U32
  below : List U32
  path : Str
deriving DecidableEq

def comp (c : Str) : Str := c.take 127

/-- The loop, with the local stack. After a component that does not fit `comp` there is no slash, and
the loop takes it for the last one. -/
def resolveSegs (find : Find) : List U32 → U32 → List Str → Option U32
  | _, cur, [] => some cur
  | stack, cur, c :: cs =>
    if isDot (comp c) then resolveSegs find stack cur cs
    else if isDotDot (comp c) then
      match stack with
      | [] => none
      | up :: stack => resolveSegs find stack up cs
    else if stack.length ≥ 31 then none
    else
      match find cur (comp c) with
      | none => none
      | some (_, false) => none
      | some (m, true) => if c.length > 127 then some m else resolveSegs find (cur :: stack) m cs

def resolveDir (find : Find) (s : Cwd) (cwdCluster : U32) (path : Str) : Option U32 :=
  if ¬ s.ready then none
  else
    match path with
    | [] => none
    | c :: rest =>
      if c = slash then resolveSegs find [] s.root (segs slash rest)
      else resolveSegs find [] cwdCluster (segs slash (c :: rest))

/-- What the loop of `change_dir` carries. -/
structure Walk where
  cur : U32
  below : List U32
  path : Str

def popPath : Str → Str
  | [] => []
  | b :: rest => b :: ((rest.reverse.dropWhile (· != slash)).drop 1).reverse

def pushPath (path c : Str) : Str := (if path.length > 1 then path ++ [slash] else path) ++ c

def Walk.up (w : Walk) : Walk :=
  match w.below with
  | [] => w
  | x :: below => { cur := x, below := below, path := popPath w.path }

def Walk.down (w : Walk) (m : U32) (c : Str) : Walk :=
  { cur := m, below := w.cur :: w.below, path := pushPath w.path c }

def changeSegs (find : Find) : Walk → List Str → Option Walk
  | w, [] => some w
  | w, c :: cs =>
    if isDotDot (comp c) then changeSegs find w.up cs
    else if isDot (comp c) then changeSegs find w cs
    else if w.below.length ≥ 31 then none
    else
      match find w.cur (comp c) with
      | none => none
      | some (_, false) => none
      | some (m, true) =>
        if w.path.length + (comp c).length + 1 ≥ 256 then none
        else changeSegs find (w.down m (comp c)) cs

def Cwd.atRoot (s : Cwd) : Cwd := { s with cur := s.root, below := [], path := [slash] }

def changeDir (find : Find) (s : Cwd) (name : Str) : Bool × Cwd :=
  match name with
  | [] => (true, s)
  | c :: rest =>
    if isDot (c :: rest) then (true, s)
    else if c = slash then
      if rest = [] then (true, s.atRoot)
      else
        match changeSegs find { cur := s.root, below := [], path := [slash] } (segs slash rest) with
        | none => (false, s)
        | some w => (true, { s with cur := w.cur, below := w.below, path := w.path })
    else
      match changeSegs find { cur := s.cur, below := s.below, path := s.path } (segs slash (c :: rest)) with
      | none => (false, s)
      | some w => (true, { s with cur := w.cur, below := w.below, path := w.path })

/-- `exfat_cwd_cluster`: cluster 0 stands for a current directory that was never set. -/
def exfatCwdCluster (s : Cwd) : Cwd := if ¬ s.ready ∨ s.cur = 0 then s.atRoot else s

def exfatResolveDir (find : Find) (s : Cwd) (path : Str) : Option U32 :=
  resolveDir find s (exfatCwdCluster s).cur path

def exfatChangeDir (find : Find) (s : Cwd) (name : Str) : Bool × Cwd :=
  if ¬ s.ready then (false, s) else changeDir find (exfatCwdCluster s) name

def fatResolveDir (find : Find) (s : Cwd) (path : Str) : Option U32 := resolveDir find s s.cur path

def fatChangeDir (find : Find) (s : Cwd) (name : Str) : Bool × Cwd :=
  if ¬ s.ready then (false, s) else changeDir find s name

end Ezos.Fs
