import Ezos.Fat.TreeCalls

/-!
# The tree along a sequence of calls

What one call does is said once, in `Did`; what holds along a sequence follows by induction.
-/

namespace Ezos.Fat

open Lib.Memory Lib.Chains Lib.Forests

set_option autoImplicit false

variable {v v' : Vol} {P P' : Plan} {d p : Nat} {e : Entry} {s s' : Sys} {call : Call} {calls : List Call}

structure Sound (s : Sys) (P : Plan) : Prop where
  tree : Tree s.vol P
  cwd : CwdIn s.vol P s.cwd

theorem Climbs.mono {stack : List Nat} (h : Climbs P d stack) (hdirs : ∀ x ∈ P.dirs, x ∈ P'.dirs)
    (hkids : ∀ p ∈ P.dirs, ∀ x ∈ P.kids p, x ∈ P'.kids p) (ht : Tree v P) : Climbs P' d stack := by
  induction stack generalizing d with
  | nil => exact hdirs d h
  | cons p stack ih => exact ⟨hkids p (h.2.mem ht) d h.1, ih h.2⟩

theorem Unmoved.sound (h : Unmoved s.vol P s'.vol P') (hs : Sound s P) (ht : Tree s'.vol P') (hc : s'.cwd = s.cwd) :
    Sound s' P' := by
  refine ⟨ht, ?_⟩
  rw [hc]
  refine ⟨hs.cwd.ready, ?_, hs.cwd.climbs.mono (fun x hx => ?_) (fun p _ x hx => ?_) hs.tree⟩
  · rw [h.form.root]
    exact hs.cwd.root
  · rw [h.dirs]
    exact hx
  · unfold Plan.kids Plan.reals at hx ⊢
    rw [h.views]
    exact hx

theorem Entered.reals {lost : List Nat} (h : Entered v P v' P' p e lost) (he : e.isDots = false) :
    (P'.reals p).Perm (e :: P.reals p) := (realsOf_cons h.here he).1

theorem Entered.reals_of_ne {lost : List Nat} (h : Entered v P v' P' p e lost) (hd : d ∈ P.dirs) (hne : d ≠ p) :
    P'.reals d = P.reals d := by
  unfold Plan.reals realsOf
  rw [h.others d hd hne]

theorem Entered.reals_mono {lost : List Nat} (h : Entered v P v' P' p e lost) (he : e.isDots = false) (hd : d ∈ P.dirs)
    {x : Entry} (hx : x ∈ P.reals d) : x ∈ P'.reals d := by
  by_cases hdp : d = p
  · subst hdp
    exact (h.reals he).mem_iff.mpr (List.mem_cons_of_mem e hx)
  · rw [h.reals_of_ne hd hdp]
    exact hx

theorem Entered.sound {lost : List Nat} (h : Entered s.vol P s'.vol P' p e lost) (he : e.isDots = false) (hs : Sound s P)
    (hc : s'.cwd = s.cwd) : Sound s' P' := by
  refine ⟨h.tree, ?_⟩
  rw [hc]
  refine ⟨hs.cwd.ready, ?_, hs.cwd.climbs.mono (fun x hx => ?_) (fun q hq x hx => ?_) hs.tree⟩
  · rw [h.form.root]
    exact hs.cwd.root
  · rw [h.dirs]
    exact List.mem_append_right _ hx
  · obtain ⟨y, hy, hdir, rfl⟩ := mem_kidsOf.mp hx
    exact mem_kidsOf.mpr ⟨y, h.reals_mono he hq hy, hdir, rfl⟩

inductive Did (s : Sys) (P : Plan) (s' : Sys) (P' : Plan) : Call → Bool → Prop
  | idle {call : Call} {ok : Bool} : Unmoved s.vol P s'.vol P' → P'.lost = P.lost → Did s P s' P' call ok
  | leaked {call : Call} {c : Nat} : ¬ Frugal s call → Unmoved s.vol P s'.vol P' → P'.lost = c :: P.lost →
      Did s P s' P' call false
  | created {f : Frame} {name leaf sn : Str} {data : Mem} {size : U32} {dir lfn first : Nat} :
      Named s P f name dir leaf → prepareNames (probe s.vol f dir) leaf = some (sn, lfn) →
      Entered s.vol P s'.vol P' dir (newEntry leaf sn lfn false first size.toNat) P.lost →
      Holding s'.vol P' data size.toNat first → Did s P s' P' (.createFile f name data size) true
  | made {f : Frame} {name leaf sn : Str} {dir lfn c : Nat} :
      Named s P f name dir leaf → prepareNames (probe s.vol f dir) leaf = some (sn, lfn) →
      Entered s.vol P s'.vol P' dir (newEntry leaf sn lfn true c 0) P.lost →
      entriesOf (P'.views c) = [dotEntry c, dotDotEntry dir] → Did s P s' P' (.mkdir f name) true
  | deleted {call : Call} {f : Frame} {name leaf : Str} {dir : Nat} {e : Entry} {de : Dirent} :
      (call = .deleteFile f name ∨ ∃ g, call = .rmdir g f name) →
      Deleted s P f name s' P' dir leaf e de → Did s P s' P' call true

theorem Tree.did_delete (hs : Sound s P) {f : Frame} {name : Str} (hgood : ForeignDir s f name)
    (hcall : call = .deleteFile f name ∨ ∃ g, call = .rmdir g f name) :
    ∃ P', Sound (fatDeleteFile s f name).2 P' ∧
      Did s P (fatDeleteFile s f name).2 P' call (fatDeleteFile s f name).1 := by
  obtain ⟨ok, s', hrun, -, hcase⟩ := hs.tree.deleteFile hs.cwd hgood
  rw [hrun]
  rcases hcase with ⟨rfl, rfl⟩ | ⟨P', dir, leaf, e, de, rfl, hdel, -⟩
  · exact ⟨P, hs, .idle (.refl _ _) rfl⟩
  · exact ⟨P', ⟨hdel.removed.tree, hdel.cwd⟩, .deleted hcall hdel⟩

theorem call_did (hs : Sound s P) (hgood : Orderly s call) :
    ∃ P', Sound (call.run s).2 P' ∧ Did s P (call.run s).2 P' call (call.run s).1 := by
  cases call with
  | createFile f name data size =>
    obtain ⟨ok, s', hrun, hcwd, P', hcase⟩ := @Tree.createFile P name f s data size hs.tree hs.cwd hgood
    unfold Call.run
    dsimp only
    rw [hrun]
    rcases hcase with ⟨rfl, hidle⟩ | ⟨dir, leaf, sn, lfn, first, rfl, hnamed, hprep, hent, hhold⟩
    · exact ⟨P', hidle.moved.sound hs hidle.tree hcwd, .idle hidle.moved hidle.lost⟩
    · exact ⟨P', hent.sound (newEntry_real hprep hnamed.good) hs hcwd, .created hnamed hprep hent hhold⟩
  | mkdir f name =>
    obtain ⟨ok, s', hrun, hcwd, P', hcase⟩ := hs.tree.mkdir hs.cwd hgood
    unfold Call.run
    dsimp only
    rw [hrun]
    rcases hcase with ⟨rfl, hidle⟩ | ⟨rfl, hleft, htree, hmoved, c, hlost⟩ |
      ⟨dir, leaf, sn, lfn, c, rfl, hnamed, hprep, hent, hview⟩
    · exact ⟨P', hidle.moved.sound hs hidle.tree hcwd, .idle hidle.moved hidle.lost⟩
    · exact ⟨P', hmoved.sound hs htree hcwd, .leaked hleft hmoved hlost⟩
    · exact ⟨P', hent.sound (newEntry_real hprep hnamed.good) hs hcwd, .made hnamed hprep hent hview⟩
  | deleteFile f name => exact Tree.did_delete hs hgood (Or.inl rfl)
  | rmdir f g name =>
    unfold Call.run
    dsimp only
    rcases fatRmdir_cases s f g name with hrun | hrun
    · rw [hrun]
      exact ⟨P, hs, .idle (.refl _ _) rfl⟩
    · rw [hrun]
      exact Tree.did_delete hs hgood (Or.inr ⟨f, rfl⟩)
  | changeDir f name =>
    unfold Call.run fatChangeDir
    dsimp only
    rcases hrun : Fs.fatChangeDir (findIn s.vol f) s.cwd (cstr name) with ⟨ok, cwd⟩
    exact ⟨P, ⟨hs.tree, hs.cwd.change hs.tree hrun⟩, .idle (.refl _ _) rfl⟩

theorem run_keeps {good : Sys → Call → Prop} {inv : Sys → Prop} (hstep : ∀ s call, inv s → good s call → inv (call.run s).2)
    (hs : inv s) (hgood : Along good s calls) : inv (runCalls s calls) := by
  induction calls generalizing s with
  | nil => exact hs
  | cons call calls ih => exact ih (hstep s call hs hgood.1) hgood.2

def Clean (s : Sys) : Prop := ∃ P, Sound s P ∧ P.lost = []

theorem clean_step (h : Clean s) (hgood : Orderly s call ∧ Frugal s call) : Clean (call.run s).2 := by
  obtain ⟨P, hs, hlost⟩ := h
  obtain ⟨P', hs', hdid⟩ := call_did hs hgood.1
  refine ⟨P', hs', ?_⟩
  generalize (call.run s).1 = ok at hdid
  cases hdid with
  | idle _ hl => rw [hl, hlost]
  | leaked hno _ _ => exact absurd hgood.2 hno
  | created _ _ hent _ => rw [hent.lost, hlost]
  | made _ _ hent _ => rw [hent.lost, hlost]
  | deleted _ hdel => rw [hdel.removed.lost, hlost]

theorem clean_run (h : Clean s) (hgood : Along (fun s call => Orderly s call ∧ Frugal s call) s calls) :
    Clean (runCalls s calls) :=
  run_keeps (fun _ _ hs hg => clean_step hs hg) h hgood

end Ezos.Fat
