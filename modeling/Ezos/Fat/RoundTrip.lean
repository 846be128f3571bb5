import Ezos.Fat.ReadFile
import Ezos.Fat.Unique

/-!
# What is written is read back

A file keeps its entry, its clusters and its data through every call that leaves its name alone. It is found, read and
listed as long as no directory shows its names with characters left over.
-/

namespace Ezos.Fat

open Lib.Memory Lib.Chains Lib.Forests

set_option autoImplicit false

variable {v v' : Vol} {P P' : Plan} {d d' p dir size : Nat} {e e' : Entry} {leaf name sn : Str} {data : Mem} {junk : Junk}
  {s s' : Sys} {call : Call} {calls : List Call} {lost : List Nat} {f : Frame}

theorem nameEq_symm {a b : Str} (h : nameEq a b = true) : nameEq b a = true := by
  unfold nameEq at h ⊢
  rw [beq_iff_eq] at h ⊢
  exact h.symm

def Printable (c : U8) : Prop := 0x20 ≤ c ∧ c < 0x7F

theorem shownChar_printable (c : U8) : 0x20 ≤ c → c < 0x7F → shownChar (c.setWidth 16) = c := by
  revert c
  decide +kernel

theorem shown_printable (h : ∀ c ∈ leaf, Printable c) : shown leaf = leaf :=
  (List.map_congr_left fun c hc => shownChar_printable c (h c hc).1 (h c hc).2).trans (List.map_id' leaf)

section
variable {found : Nat → Str → Bool} {lfn first : Nat} {isDir : Bool}

theorem newEntry_ownName (h : prepareNames found leaf = some (sn, lfn)) (hleaf : Leaf leaf) :
    nameEq (newEntry leaf sn lfn isDir first size).ownName leaf = true ∨
      (newEntry leaf sn lfn isDir first size).ownName = shown leaf := by
  rcases prepareNames_cases h hleaf with ⟨rfl, -, hname⟩ | ⟨-, hpos, -⟩
  · exact Or.inl hname
  · have hlong : (newEntry leaf sn lfn isDir first size).long = some leaf := if_neg (Nat.ne_of_gt hpos)
    refine Or.inr ?_
    unfold Entry.ownName
    rw [hlong]

end

theorem Tree.first_inj (h : Tree v P) (hd : d ∈ P.dirs) (hd' : d' ∈ P.dirs) (he : e ∈ P.reals d) (he' : e' ∈ P.reals d')
    (h2 : 2 ≤ e.short.first) (heq : e'.short.first = e.short.first) : d' = d ∧ e' = e := by
  have hall := (List.nodup_append.mp (List.nodup_append.mp h.owned.heads_nodup).2.1).2.1
  obtain ⟨heach, hpair⟩ := List.nodup_flatMap.mp hall
  have href : e.short.first ∈ P.refs d := mem_refsOf.mpr ⟨⟨e, he, rfl⟩, h2⟩
  have href' : e.short.first ∈ P.refs d' := mem_refsOf.mpr ⟨⟨e', he', heq⟩, h2⟩
  have hdd : d' = d := by
    have hsymm : Std.Symm (Function.onFun List.Disjoint P.refs) := ⟨fun _ _ hxy => hxy.symm⟩
    by_contra hne
    exact hpair.forall hd' hd hne href' href
  subst hdd
  refine ⟨rfl, ?_⟩
  have hnd := heach d' hd
  unfold Plan.refs refsOf at hnd
  rw [List.filter_map] at hnd
  have hmem : ∀ x ∈ P.reals d', x.short.first = e.short.first →
      x ∈ (P.reals d').filter ((fun c => decide (2 ≤ c)) ∘ fun e => e.short.first) := by
    intro x hx hfirst
    rw [← hfirst] at h2
    exact List.mem_filter.mpr ⟨hx, decide_eq_true h2⟩
  exact List.inj_on_of_nodup_map hnd (hmem e' he' heq) (hmem e he rfl) heq

theorem Tree.file_not_dir (h : Tree v P) (hd : d ∈ P.dirs) (he : e ∈ P.reals d) (hfile : e.short.isDir = false)
    (h2 : 2 ≤ e.short.first) : e.short.first ∉ P.dirs := by
  intro hmem
  by_cases hroot : e.short.first = rootDirClusterValue v
  · have href : e.short.first ∈ P.dirs.flatMap P.refs := List.mem_flatMap.mpr ⟨d, hd, mem_refsOf.mpr ⟨⟨e, he, rfl⟩, h2⟩⟩
    unfold rootDirClusterValue at hroot
    split at hroot
    · rename_i hk
      have hkept := (List.nodup_append.mp h.owned.heads_nodup).2.1
      refine (List.nodup_append.mp hkept).2.2 _ ?_ _ href rfl
      rw [rootRefs, if_pos hk, hroot]
      exact List.mem_singleton_self _
    · omega
  · obtain ⟨q, hq, hkid⟩ := h.forest.parent hmem hroot
    obtain ⟨x, hx, hdir, hfirst⟩ := mem_kidsOf.mp hkid
    obtain ⟨-, rfl⟩ := h.first_inj hd hq he hx h2 hfirst
    rw [hfile] at hdir
    contradiction

structure FileIn (v : Vol) (P : Plan) (dir : Nat) (leaf : Str) (data : Mem) (size : Nat) (e : Entry) : Prop where
  home : dir ∈ P.dirs
  here : e ∈ P.reals dir
  file : e.short.isDir = false
  length : e.short.size = size
  room : size ≤ dataClusters v size * v.clusterSize
  named : nameEq e.ownName leaf = true
  alone : ∀ x ∈ entriesOf (P.views dir), nameEq x.ownName leaf = true → x = e
  holds : Holding v P data size e.short.first

namespace FileIn

theorem head (h : FileIn v P dir leaf data size e) (h2 : 2 ≤ e.short.first) : e.short.first ∈ P.lost ++ P.kept v :=
  Tree.mem_heads (Tree.ref_kept h.home (mem_refsOf.mpr ⟨⟨e, h.here, rfl⟩, h2⟩))

theorem ne_dir (h : FileIn v P dir leaf data size e) (ht : Tree v P) (hd : d ∈ P.dirs) (h2 : 2 ≤ e.short.first) :
    e.short.first ≠ d := by
  rintro rfl
  exact ht.file_not_dir h.home h.here h.file h2 hd

theorem unmoved (h : FileIn v P dir leaf data size e) (hm : Unmoved v P v' P') : FileIn v' P' dir leaf data size e := by
  refine ⟨?_, ?_, h.file, h.length, ?_, h.named, ?_, h.holds.same hm.form fun h2 => hm.same _ (h.head h2)⟩
  · rw [hm.dirs]
    exact h.home
  · unfold Plan.reals
    rw [hm.views]
    exact h.here
  · rw [hm.form.dataClusters, hm.form.clusterSize]
    exact h.room
  · rw [hm.views]
    exact h.alone

theorem entered (h : FileIn v P dir leaf data size e) (ht : Tree v P) (hent : Entered v P v' P' p e' lost)
    (hp : p ∈ P.dirs) (hreal : e'.isDots = false) (hapart : p = dir → nameEq e'.ownName leaf = false) :
    FileIn v' P' dir leaf data size e := by
  refine ⟨?_, hent.reals_mono hreal h.home h.here, h.file, h.length, ?_, h.named, fun x hx hname => ?_,
    h.holds.same hent.form fun h2 => hent.same _ (h.head h2) (h.ne_dir ht hp h2)⟩
  · rw [hent.dirs]
    exact List.mem_append_right _ h.home
  · rw [hent.form.dataClusters, hent.form.clusterSize]
    exact h.room
  · by_cases hpd : p = dir
    · subst hpd
      rcases List.mem_cons.mp (hent.here.mem_iff.mp hx) with rfl | hx
      · rw [hapart rfl] at hname
        contradiction
      · exact h.alone x hx hname
    · rw [hent.others dir h.home (Ne.symm hpd)] at hx
      exact h.alone x hx hname

theorem removed (h : FileIn v P dir leaf data size e) (ht : Tree v P) (hrem : Removed v P v' P' p e') (hp : p ∈ P.dirs)
    (he' : e' ∈ P.reals p) (hempty : e'.short.isDir = true → P.reals e'.short.first = [])
    (hapart : p = dir → nameEq e'.ownName leaf = false) : FileIn v' P' dir leaf data size e := by
  have hne : p = dir → e' ≠ e := by
    rintro hpd rfl
    have hnamed := h.named
    rw [hapart hpd] at hnamed
    contradiction
  have hentries : ∀ x, x ∈ entriesOf (P'.views dir) → x ∈ entriesOf (P.views dir) := by
    intro x hx
    by_cases hpd : p = dir
    · subst hpd
      exact hrem.here.mem_iff.mpr (List.mem_cons_of_mem e' hx)
    · rw [hrem.others dir (Ne.symm hpd)] at hx
      exact hx
  have hstays : e ∈ entriesOf (P'.views dir) := by
    obtain ⟨hmem, -⟩ := mem_realsOf.mp h.here
    by_cases hpd : p = dir
    · subst hpd
      rcases List.mem_cons.mp (hrem.here.mem_iff.mp hmem) with heq | hmem
      · exact absurd heq.symm (hne rfl)
      · exact hmem
    · rw [hrem.others dir (Ne.symm hpd)]
      exact hmem
  have hchain : 2 ≤ e.short.first → SameChain v P v' P' e.short.first := by
    intro h2
    refine hrem.same _ (h.head h2) (h.ne_dir ht hp h2) fun heq => ?_
    obtain ⟨hpd, hee⟩ := ht.first_inj h.home hp h.here he' h2 heq.symm
    exact hne hpd hee
  refine ⟨hrem.dir_mem h.home ?_, mem_realsOf.mpr ⟨hstays, (mem_realsOf.mp h.here).2⟩, h.file, h.length, ?_, h.named,
    fun x hx hname => h.alone x (hentries x hx) hname, h.holds.same hrem.form hchain⟩
  · rintro hdir rfl
    have hin := h.here
    rw [hempty hdir] at hin
    exact absurd hin List.not_mem_nil
  · rw [hrem.form.dataClusters, hrem.form.clusterSize]
    exact h.room

end FileIn

def MakesAnother (s : Sys) (f : Frame) (name : Str) (dir : Nat) (leaf : Str) : Prop :=
  ∀ other, newLeaf s f name = some (dir, other) → nameEq other leaf = false ∧ nameEq (shown other) leaf = false

def DropsAnother (s : Sys) (f : Frame) (name : Str) (dir : Nat) (leaf : Str) : Prop :=
  ∀ other, fatResolveLeaf s f (cstr name) = some (dir, other) → nameEq other leaf = false ∧ Unstale s.vol f.leaf dir

def Spares (dir : Nat) (leaf : Str) (s : Sys) : Call → Prop
  | .createFile f name _ _ => MakesAnother s f name dir leaf
  | .mkdir f name => MakesAnother s f name dir leaf
  | .deleteFile f name => DropsAnother s f name dir leaf
  | .rmdir _ g name => DropsAnother s g name dir leaf
  | .changeDir _ _ => True

theorem MakesAnother.apart {found : Nat → Str → Bool} {other : Str} {lfn first n : Nat} {isDir : Bool}
    (h : MakesAnother s f name dir leaf) (hnamed : Named s P f name p other)
    (hprep : prepareNames found other = some (sn, lfn)) (hpd : p = dir) :
    nameEq (newEntry other sn lfn isDir first n).ownName leaf = false := by
  subst hpd
  obtain ⟨hother, hshown⟩ := h other hnamed.new
  rcases @newEntry_ownName n other sn found lfn first isDir hprep hnamed.good with hname | hname
  · rw [← Bool.not_eq_true]
    intro heq
    rw [nameEq_trans (nameEq_symm hname) heq] at hother
    contradiction
  · rw [hname]
    exact hshown

theorem DropsAnother.apart {other : Str} {de : Dirent} (h : DropsAnother s f name dir leaf)
    (hdel : Deleted s P f name s' P' p other e' de) (hpd : p = dir) : nameEq e'.ownName leaf = false := by
  subst hpd
  obtain ⟨hother, hun⟩ := h other hdel.resolved
  have hfound : nameEq de.name other = true :=
    @List.find?_some _ (fun e : Dirent => nameEq e.name other) _ _ hdel.found
  rw [hdel.own hun] at hfound
  rw [← Bool.not_eq_true]
  intro heq
  rw [nameEq_trans (nameEq_symm hfound) heq] at hother
  contradiction

theorem FileIn.step {ok : Bool} (h : FileIn s.vol P dir leaf data size e) (hs : Sound s P)
    (hdid : Did s P s' P' call ok) (hspare : Spares dir leaf s call) : FileIn s'.vol P' dir leaf data size e := by
  cases hdid with
  | idle hm _ => exact h.unmoved hm
  | leaked _ hm _ => exact h.unmoved hm
  | created hnamed hprep hent _ =>
    exact h.entered hs.tree hent hnamed.home (newEntry_real hprep hnamed.good) (MakesAnother.apart hspare hnamed hprep)
  | made hnamed hprep hent _ =>
    exact h.entered hs.tree hent hnamed.home (newEntry_real hprep hnamed.good) (MakesAnother.apart hspare hnamed hprep)
  | deleted hcall hdel =>
    rcases hcall with rfl | ⟨g, rfl⟩
    · exact h.removed hs.tree hdel.removed hdel.home hdel.real hdel.empty (DropsAnother.apart hspare hdel)
    · exact h.removed hs.tree hdel.removed hdel.home hdel.real hdel.empty (DropsAnother.apart hspare hdel)

def FileAt (dir : Nat) (leaf : Str) (data : Mem) (size : Nat) (s : Sys) : Prop :=
  ∃ P e, Sound s P ∧ FileIn s.vol P dir leaf data size e

theorem fileAt_run (h : FileAt dir leaf data size s)
    (hgood : Along (fun s call => Orderly s call ∧ Spares dir leaf s call) s calls) :
    FileAt dir leaf data size (runCalls s calls) := by
  refine run_keeps (fun s call hs hcall => ?_) h hgood
  obtain ⟨P, e, hsound, hfile⟩ := hs
  obtain ⟨P', hsound', hdid⟩ := call_did hsound hcall.1
  exact ⟨P', e, hsound', hfile.step hsound hdid hcall.2⟩

theorem Tree.shown_own (h : Tree v P) (hd : d ∈ P.dirs) (hun : Unstale v junk d) (he : e ∈ entriesOf (P.views d)) :
    ∃ de ∈ (dirents v junk d).1, ∃ b i, Shows (b, i, e) de ∧ de.name = e.ownName := by
  obtain ⟨des, hdes, hrun⟩ := h.dirents_owned hd junk
  rw [← map_placed] at he
  obtain ⟨⟨b, i, e'⟩, hq, rfl⟩ := List.mem_map.mp he
  obtain ⟨de, hde, hshow, hown⟩ := forall₂_mem_left hdes hq
  rw [hrun]
  exact ⟨de, hde, b, i, hshow, hown hun⟩

theorem dataClusters_room (hpos : 0 < v.clusterSize) (hsmall : v.clusterSize ≤ 8192) (hsize : size < 2 ^ 31) :
    size ≤ dataClusters v size * v.clusterSize := by
  have hdiv := Nat.div_add_mod (size + v.clusterSize - 1) v.clusterSize
  have hmod := Nat.mod_lt (size + v.clusterSize - 1) hpos
  unfold dataClusters
  rw [Nat.mod_eq_of_lt (by omega), Nat.mul_comm]
  omega

theorem fileAt_created {n : U32} (hs : Sound s P) (hgood : PlaceOk s f name) (hnew : newLeaf s f name = some (dir, leaf))
    (hok : (fatCreateFile s f name data n).1 = true) (hprint : ∀ c ∈ leaf, Printable c) (hun : Unstale s.vol f.leaf dir)
    (hsmall : s.vol.clusterSize ≤ 8192) (hsize : n.toNat < 2 ^ 31) :
    FileAt dir leaf data n.toNat (fatCreateFile s f name data n).2 := by
  obtain ⟨ok, s', hrun, hcwd, P', hcase⟩ := @Tree.createFile P name f s data n hs.tree hs.cwd hgood
  rw [hrun] at hok ⊢
  dsimp only at hok ⊢
  rcases hcase with ⟨hno, -⟩ | ⟨dir', leaf', sn, lfn, first, -, hnamed, hprep, hent, hhold⟩
  · rw [hno] at hok
    contradiction
  obtain ⟨rfl, rfl⟩ := Prod.mk.inj (Option.some.inj (hnamed.new.symm.trans hnew))
  have hreal := @newEntry_real sn leaf' (probe s.vol f dir') lfn false first n.toNat hprep hnamed.good
  refine ⟨P', newEntry leaf' sn lfn false first n.toNat, hent.sound hreal hs hcwd, ?_, ?_, rfl, rfl, ?_, ?_,
    fun x hx hname => ?_, hhold⟩
  · rw [hent.dirs]
    exact List.mem_append_right _ hnamed.home
  · exact mem_realsOf.mpr ⟨hent.here.mem_iff.mpr List.mem_cons_self, hreal⟩
  · rw [hent.form.dataClusters, hent.form.clusterSize]
    refine dataClusters_room ?_ hsmall hsize
    have hsector := hs.tree.formed.sector
    have hcluster := hs.tree.formed.cluster
    unfold Vol.clusterSize
    rw [hsector]
    omega
  · rcases newEntry_ownName hprep hnamed.good with hname | hname
    · exact hname
    · rw [hname, shown_printable hprint]
      exact beq_self_eq_true _
  · rcases List.mem_cons.mp (hent.here.mem_iff.mp hx) with rfl | hx
    · rfl
    · obtain ⟨de, hde, -, -, -, hown⟩ := hs.tree.shown_own hnamed.home hun hx
      have habsent := List.find?_eq_none.mp hnamed.absent de hde
      rw [hown] at habsent
      exact absurd hname habsent

theorem Did.form {ok : Bool} (h : Did s P s' P' call ok) : SameForm s.vol s'.vol := by
  cases h with
  | idle hm _ => exact hm.form
  | leaked _ hm _ => exact hm.form
  | created _ _ hent _ => exact hent.form
  | made _ _ hent _ => exact hent.form
  | deleted _ hdel => exact hdel.removed.form

def SoundOn (w : Vol) (s : Sys) : Prop := ∃ P, Sound s P ∧ SameForm w s.vol

theorem soundOn_run {w : Vol} (h : SoundOn w s) (hgood : Along Orderly s calls) : SoundOn w (runCalls s calls) := by
  refine run_keeps (fun s call hs hcall => ?_) h hgood
  obtain ⟨P, hsound, hform⟩ := hs
  obtain ⟨P', hsound', hdid⟩ := call_did hsound hcall
  exact ⟨P', hsound', hform.trans hdid.form⟩

/-! ## Reading -/

theorem splitLast_last {path front : Str} (h : splitLast path = some (front, leaf)) : splitLast leaf = none := by
  induction path generalizing front with
  | nil => contradiction
  | cons c rest ih =>
    unfold splitLast at h
    cases hs : splitLast rest with
    | some r =>
      obtain ⟨front', leaf'⟩ := r
      rw [hs] at h
      obtain ⟨-, rfl⟩ := Prod.mk.inj (Option.some.inj h)
      exact ih hs
    | none =>
      rw [hs] at h
      dsimp only at h
      split at h
      · obtain ⟨-, rfl⟩ := Prod.mk.inj (Option.some.inj h)
        exact hs
      · contradiction

theorem splitLast_leaf {path : Str} (h : fatResolveLeaf s f path = some (d, leaf)) : splitLast leaf = none := by
  unfold fatResolveLeaf at h
  split at h
  · contradiction
  cases hsplit : splitLast path with
  | none =>
    rw [hsplit] at h
    dsimp only at h
    split at h
    · contradiction
    · obtain ⟨-, rfl⟩ := Prod.mk.inj (Option.some.inj h)
      exact hsplit
  | some r =>
    obtain ⟨front, last⟩ := r
    have hlast := splitLast_last hsplit
    rw [hsplit] at h
    dsimp only at h
    split at h
    · contradiction
    · split at h
      · obtain ⟨-, rfl⟩ := Prod.mk.inj (Option.some.inj h)
        exact hlast
      · split at h
        · contradiction
        · split at h
          · contradiction
          · obtain ⟨-, rfl⟩ := Prod.mk.inj (Option.some.inj h)
            exact hlast

def HasFile (es : List DirEntry) (leaf : Str) (size : Nat) : Prop :=
  ∃ x ∈ es, nameEq x.name leaf = true ∧ x.size = size ∧ x.isDir = false

/-- The file is found, it has its size and its data, and a listing with room for every entry of the directory has it. -/
structure ReadsBack (s : Sys) (f : Frame) (dir : Nat) (leaf : Str) (data : Mem) (size : Nat) : Prop where
  here : s.cwd.cur.toNat = dir → fatResolveLeaf s f (cstr leaf) = some (dir, leaf)
  found : ∃ de, fatFindEntry s.vol f.leaf dir leaf = some de ∧ nameEq de.name leaf = true
  length : ∀ name, fatResolveLeaf s f (cstr name) = some (dir, leaf) → fatGetFileSize s f name = size
  read : ∀ name buf (max : U32), fatResolveLeaf s f (cstr name) = some (dir, leaf) → size ≤ max.toNat →
    fatReadFile s f name buf max = ((size : Int), fun x => if x < size then data x else buf x)
  listed : ∀ max : Int, s.cwd.cur.toNat = dir → ((dirents s.vol f.inside dir).1.length : Int) ≤ max →
    ∃ es, fatReadDir s f max = some es ∧ HasFile es leaf size
  listedPath : ∀ path d (max : Int), Fs.fatResolveDir (findIn s.vol f) s.cwd (cstr path) = some d → d.toNat = dir →
    ((dirents s.vol f.inside dir).1.length : Int) ≤ max → ∃ es, fatReadDirPath s f path max = some es ∧ HasFile es leaf size

theorem nameEq_length {a b : Str} (h : nameEq a b = true) : a.length = b.length := by
  have hmap : a.map upChar = b.map upChar := LawfulBEq.eq_of_beq h
  have hlen := congrArg List.length hmap
  rw [List.length_map, List.length_map] at hlen
  exact hlen

theorem fatDirForeach_fst {σ : Type} (cb : σ → Dirent → σ × Bool) (x : σ) :
    (fatDirForeach v junk d cb x).1 = (untilStop cb x (dirents v junk d).1).1 := by
  unfold fatDirForeach
  dsimp only
  rcases untilStop cb x (dirents v junk d).1 with ⟨y, _ | _⟩
  · rfl
  · rfl

namespace FileIn

theorem find (h : FileIn v P dir leaf data size e) (ht : Tree v P) (hun : Unstale v junk dir) :
    ∃ de b i, fatFindEntry v junk dir leaf = some de ∧ nameEq de.name leaf = true ∧ Shows (b, i, e) de := by
  obtain ⟨hmem, -⟩ := mem_realsOf.mp h.here
  obtain ⟨de, hde, -, -, -, hown⟩ := ht.shown_own h.home hun hmem
  cases hfind : fatFindEntry v junk dir leaf with
  | none =>
    have habsent := List.find?_eq_none.mp hfind de hde
    rw [hown] at habsent
    exact absurd h.named habsent
  | some de' =>
    obtain ⟨⟨b, i, x⟩, hq, hshow, hname, hown'⟩ := ht.find_some h.home hfind
    have hx : x ∈ entriesOf (P.views dir) := by
      rw [← map_placed]
      exact List.mem_map.mpr ⟨_, hq, rfl⟩
    have hsame := hname
    rw [hown' hun] at hsame
    obtain rfl := h.alone x hx hsame
    exact ⟨de', b, i, rfl, hname, hshow⟩

theorem readLoop (h : FileIn v P dir leaf data size e) (ht : Tree v P) (hpos : 0 < size) {max : Nat} (hmax : size ≤ max)
    (buf : Mem) : e.short.first ≠ 0 ∧ Fat.readLoop v size max e.short.first 0 buf v.limit =
      (some size, fun x => if x < size then data x else buf x) := by
  have hroom := h.room
  rcases h.holds with ⟨-, hnone⟩ | ⟨h2, hlen, hfill⟩
  · rw [hnone, Nat.zero_mul] at hroom
    omega
  have hheads := h.head h2
  have hcount := ht.owned.length_le hheads
  have hchain := @readLoop_chain v data buf size max e.short.first v.limit 0 _ ht.formed.readable ht.formed.sized
    (ht.owned.chain_of hheads) hfill (by rw [Nat.zero_mul]; exact hpos) (by rw [Nat.zero_add, hlen]; exact hroom) hmax
    (by unfold Vol.limit; omega)
  rw [Nat.zero_mul] at hchain
  refine ⟨by omega, hchain.trans (Prod.ext rfl (funext fun x => ?_))⟩
  by_cases hx : x < size
  · exact (if_pos ⟨Nat.zero_le x, hx⟩).trans (if_pos hx).symm
  · exact (if_neg fun hno => hx hno.2).trans (if_neg hx).symm

theorem read (h : FileIn s.vol P dir leaf data size e) (ht : Tree s.vol P) (hun : Unstale s.vol f.leaf dir)
    (hsize : size < 2 ^ 31) (hr : fatResolveLeaf s f (cstr name) = some (dir, leaf)) {max : U32} (hmax : size ≤ max.toNat)
    (buf : Mem) : fatReadFile s f name buf max = ((size : Int), fun x => if x < size then data x else buf x) := by
  obtain ⟨de, b, i, hfind, -, hshow⟩ := h.find ht hun
  have hdir : de.isDir = false := hshow.isDir.trans h.file
  have hlen : de.size = size := hshow.size.trans h.length
  have hfirst : de.firstCluster = e.short.first := hshow.firstCluster
  unfold fatReadFile
  rw [hr]
  dsimp only
  rw [hfind]
  dsimp only
  rw [hdir, hlen, hfirst, if_neg Bool.false_ne_true]
  by_cases hzero : size = 0
  · rw [if_pos (Or.inl hzero)]
    refine Prod.ext (congrArg Nat.cast hzero).symm (funext fun x => (if_neg ?_).symm)
    omega
  · obtain ⟨hne, hloop⟩ := h.readLoop ht (Nat.pos_of_ne_zero hzero) hmax buf
    rw [if_neg (not_or.mpr ⟨hzero, hne⟩), hloop]
    refine Prod.ext ?_ rfl
    have htoNat : (BitVec.ofNat 32 size).toNat = size := by
      rw [BitVec.toNat_ofNat, Nat.mod_eq_of_lt (by omega)]
    dsimp only
    rw [BitVec.toInt_eq_toNat_of_lt (by omega), htoNat]

theorem listed (h : FileIn v P dir leaf data size e) (ht : Tree v P) (hun : Unstale v junk dir) (hleaf : leaf.length ≤ 127)
    {max : Int} (hmax : ((dirents v junk dir).1.length : Int) ≤ max) :
    HasFile (fatDirForeach v junk dir (listCb max) []).1 leaf size := by
  obtain ⟨hmem, -⟩ := mem_realsOf.mp h.here
  obtain ⟨de, hde, b, i, hshow, hown⟩ := ht.shown_own h.home hun hmem
  have hname : nameEq de.name leaf = true := by
    rw [hown]
    exact h.named
  have hlen := nameEq_length hname
  have hdot : isDotName de.name = false := (ht.sound dir h.home e h.here).proper de.name hshow.name
  refine ⟨{ name := de.name.take 255, size := de.size, isDir := de.isDir }, ?_, ?_, hshow.size.trans h.length,
    hshow.isDir.trans h.file⟩
  · rw [fatDirForeach_fst]
    refine untilStop_listCb ?_ hdot hde
    rw [List.length_nil, Nat.zero_add]
    exact hmax
  · dsimp only
    rw [List.take_of_length_le (by omega)]
    exact hname

end FileIn

theorem FileAt.readsBack (h : FileAt dir leaf data size s) (hleaf : Leaf leaf) (hlast : splitLast leaf = none)
    (hsize : size < 2 ^ 31) (hfind : Unstale s.vol f.leaf dir) (hlist : Unstale s.vol f.inside dir) :
    ReadsBack s f dir leaf data size := by
  obtain ⟨P, e, ⟨ht, hcwd⟩, hfile⟩ := h
  refine ⟨fun hcur => ?_, ?_, fun name hr => ?_, fun name buf max hr hmax => hfile.read ht hfind hsize hr hmax buf,
    fun max hcur hmax => ?_, fun path d max hr hd hmax => ?_⟩
  · have hwhole : cstr leaf = leaf := List.takeWhile_eq_self_iff.mpr fun c hc => decide_eq_true (hleaf.nul c hc)
    have hle := hleaf.le
    unfold fatResolveLeaf
    rw [hwhole, if_neg (not_or.mpr ⟨by rw [hcwd.ready]; exact Bool.false_ne_true.symm, hleaf.ne⟩), hlast]
    dsimp only
    rw [if_neg (by omega), hcur]
  · obtain ⟨de, -, -, hde, hname, -⟩ := hfile.find ht hfind
    exact ⟨de, hde, hname⟩
  · obtain ⟨de, b, i, hde, -, hshow⟩ := hfile.find ht hfind
    unfold fatGetFileSize
    rw [hr]
    dsimp only
    rw [hde]
    exact hshow.size.trans hfile.length
  · refine ⟨_, ?_, hfile.listed ht hlist hleaf.le hmax⟩
    unfold fatReadDir
    rw [hcwd.ready, if_neg Bool.false_ne_true.symm, hcur]
  · obtain ⟨hmem, -⟩ := mem_realsOf.mp hfile.here
    obtain ⟨de, hde, -⟩ := ht.shown_own hfile.home hlist hmem
    have hpos := List.length_pos_of_mem hde
    refine ⟨_, ?_, hfile.listed ht hlist hleaf.le hmax⟩
    unfold fatReadDirPath
    rw [hcwd.ready, if_neg (not_or.mpr ⟨Bool.false_ne_true.symm, by omega⟩), hr]
    dsimp only
    rw [hd]

structure Creates (s : Sys) (f : Frame) (name : Str) (data : Mem) (n : U32) (dir : Nat) (leaf : Str) : Prop where
  new : newLeaf s f name = some (dir, leaf)
  printable : ∀ c ∈ leaf, Printable c
  ok : (fatCreateFile s f name data n).1 = true

/-- After formatting and orderly calls a file is created, and more orderly calls spare it: it reads back, when the
directory shows its names as they are to the call that creates it and to the one that looks for it. -/
theorem file_reads_back (disk : Disk) (cap part : U32) (k : Kind) (s₀ : Sys) (before after : List Call) (f g : Frame)
    (name : Str) (data : Mem) (n : U32) (dir : Nat) (leaf : Str) (hformat : fatFormat disk cap part k = some s₀)
    (hbefore : Along Orderly s₀ before) (hcreates : Creates (runCalls s₀ before) f name data n dir leaf)
    (hplace : PlaceOk (runCalls s₀ before) f name) (hnew : Unstale (runCalls s₀ before).vol f.leaf dir)
    (hsize : n.toNat < 2 ^ 31)
    (hafter : Along (fun s call => Orderly s call ∧ Spares dir leaf s call)
      (fatCreateFile (runCalls s₀ before) f name data n).2 after)
    (hfind : Unstale (runCalls (fatCreateFile (runCalls s₀ before) f name data n).2 after).vol g.leaf dir)
    (hlist : Unstale (runCalls (fatCreateFile (runCalls s₀ before) f name data n).2 after).vol g.inside dir) :
    ReadsBack (runCalls (fatCreateFile (runCalls s₀ before) f name data n).2 after) g dir leaf data n.toNat := by
  obtain ⟨P, hs, hform⟩ := soundOn_run ⟨blankPlan s₀.vol, fatFormat_sound hformat, .refl s₀.vol⟩ hbefore
  have hsmall : (runCalls s₀ before).vol.clusterSize ≤ 8192 := by
    rw [hform.clusterSize]
    exact fatFormat_clusterSize hformat
  have hnamed := hs.tree.named hs.cwd hcreates.new
  have hlast : splitLast leaf = none := by
    have hn := hcreates.new
    unfold newLeaf at hn
    split at hn
    · contradiction
    · split at hn
      · contradiction
      · rename_i hr
        split at hn
        · contradiction
        · obtain ⟨rfl, rfl⟩ := Prod.mk.inj (Option.some.inj hn)
          exact splitLast_leaf hr
  have hstored := fileAt_created hs hplace hcreates.new hcreates.ok hcreates.printable hnew hsmall hsize
  exact (fileAt_run hstored hafter).readsBack hnamed.good hlast hsize hfind hlist

def plusA : Str := [0x2B, 0x41]

def plusSys : Sys := (fatCreateFile smallSys stillFrame plusA zeros 1).2

theorem plus_printable : ∀ c ∈ plusA, Printable c := by
  unfold Printable
  decide

theorem plus_computes :
    newLeaf smallSys stillFrame plusA = some (0, plusA) ∧ newLeaf plusSys stillFrame [0x41] = some (0, [0x41]) ∧
      (fatCreateFile smallSys stillFrame plusA zeros 1).1 = true ∧ ¬ SkipsEnd smallSys.vol 0 (slotsFor plusA) ∧
        ¬ SkipsEnd plusSys.vol 0 (slotsFor [0x41]) ∧ Unstale smallSys.vol (fun _ => 0) 0 ∧
          Unstale (runCalls plusSys [.mkdir stillFrame [0x41]]).vol (fun _ => 0) 0 :=
  ⟨by decide +kernel, by decide +kernel, by decide +kernel, by decide +kernel, by decide +kernel,
    ⟨by decide +kernel, by decide +kernel⟩, ⟨by decide +kernel, by decide +kernel⟩⟩

theorem plus_creates : Creates smallSys stillFrame plusA zeros 1 0 plusA :=
  ⟨plus_computes.1, plus_printable, plus_computes.2.2.1⟩

theorem plus_placeOk : PlaceOk smallSys stillFrame plusA := by
  intro dir leaf hleaf
  obtain ⟨hnew, -, -, hend, -⟩ := plus_computes
  rw [hnew] at hleaf
  obtain ⟨rfl, rfl⟩ := Prod.mk.inj (Option.some.inj hleaf)
  exact ⟨by decide, hend⟩

theorem plus_mkdir : Orderly plusSys (.mkdir stillFrame [0x41]) ∧ Spares 0 plusA plusSys (.mkdir stillFrame [0x41]) := by
  obtain ⟨-, hnew, -, -, hend, -⟩ := plus_computes
  constructor
  · intro dir leaf hleaf
    rw [hnew] at hleaf
    obtain ⟨rfl, rfl⟩ := Prod.mk.inj (Option.some.inj hleaf)
    exact ⟨by decide, hend⟩
  · intro other hother
    rw [hnew] at hother
    obtain ⟨-, rfl⟩ := Prod.mk.inj (Option.some.inj hother)
    exact ⟨by decide, by decide⟩

theorem small_unstale : Unstale smallSys.vol (fun _ => 0) 0 := plus_computes.2.2.2.2.2.1

theorem plus_unstale : Unstale (runCalls plusSys [.mkdir stillFrame [0x41]]).vol (fun _ => 0) 0 :=
  plus_computes.2.2.2.2.2.2

theorem file_reads_back_plus :
    ReadsBack (runCalls plusSys [.mkdir stillFrame [0x41]]) stillFrame 0 plusA zeros 1 :=
  file_reads_back blankDisk 400 1 .fat12 smallSys [] [.mkdir stillFrame [0x41]] stillFrame stillFrame plusA zeros 1 0 plusA
    small_format trivial plus_creates plus_placeOk small_unstale (by decide) ⟨plus_mkdir, trivial⟩ plus_unstale plus_unstale

def longerSys : Sys := runCalls smallSys [.createFile stillFrame [0x2B, 0x41, 0x41, 0x42] zeros 0]

theorem longer_computes : newLeaf longerSys stillFrame plusA = some (0, plusA) ∧
    (fatCreateFile longerSys stillFrame plusA zeros 1).1 = true ∧
      (fatFindEntry (fatCreateFile longerSys stillFrame plusA zeros 1).2.vol (fun _ => 0) 0 plusA).isNone = true :=
  ⟨by decide +kernel, by decide +kernel, by decide +kernel⟩

theorem longer_creates : Creates longerSys stillFrame plusA zeros 1 0 plusA :=
  ⟨longer_computes.1, plus_printable, longer_computes.2.1⟩

/-- Behind the longer name the shorter one is shown with the end of the longer, and the file is not found. -/
theorem file_hidden : fatFormat blankDisk 400 1 .fat12 = some smallSys ∧ Creates longerSys stillFrame plusA zeros 1 0 plusA ∧
    ¬ ReadsBack (fatCreateFile longerSys stillFrame plusA zeros 1).2 stillFrame 0 plusA zeros 1 := by
  refine ⟨small_format, longer_creates, fun h => ?_⟩
  obtain ⟨de, hde, -⟩ := h.found
  have hnone := longer_computes.2.2
  have hde' : fatFindEntry (fatCreateFile longerSys stillFrame plusA zeros 1).2.vol (fun _ => 0) 0 plusA = some de := hde
  rw [hde'] at hnone
  exact absurd hnone Bool.false_ne_true

end Ezos.Fat
