import Ezos.Fat.Scan
import Ezos.Fat.Chains
import Ezos.Fat.Items
import Ezos.Lib.Forests

/-!
# Characters left over

The end of a long name that does not fill its slots is not stored: it ends where `lfn_chars` happens to hold a zero.
What stands there was on the stack, or belongs to a longer name in front of it. Where neither is in the way, every entry
is shown under its own name.
-/

namespace Ezos.Fat

open Lib.Memory

set_option autoImplicit false

def rawChar (v : Vol) (de : Dirent) (p : Nat) : U16 :=
  lfnChar (slotAt (blockAt v de.block) (de.slot - 1 - p / 13)) (p % 13)

def ownLength (v : Vol) (de : Dirent) : Nat :=
  ((List.range (13 * de.lfnCount)).takeWhile fun p => rawChar v de p ≠ 0x0000).length

/-- Behind each long name of a directory that does not fill its slots, `lfn_chars` holds a zero. -/
structure Unstale (v : Vol) (junk : Junk) (dir : Nat) : Prop where
  stack : ∀ de ∈ (dirents v junk dir).1, ownLength v de % 13 ≠ 0 → junk (ownLength v de) = 0x0000
  longer : (dirents v junk dir).1.Pairwise fun x y => ownLength v y % 13 ≠ 0 → ownLength v x ≤ ownLength v y

def Entry.longLength (e : Entry) : Nat := (e.long.getD []).length

def Entry.ownName (e : Entry) : Str :=
  match e.long with
  | none => e.short.text
  | some l => shown l

structure ShowsOwn (p : Block × Nat × Entry) (d : Dirent) : Prop extends Shows p d where
  own : d.name = p.2.2.ownName

variable {v : Vol} {b b' : Block} {i j m n : Nat} {e : Entry} {items : List Item} {w : View} {de : Dirent} {name : Str}
  {ck : U8} {chars last : Junk} {ps : List (Block × Nat × Entry)} {ds : List Dirent}

/-! ## The slots of a long name -/

theorem mem_placed (h : (b, i, e) ∈ placed b' j items) :
    b = b' ∧ ∃ A B, items = A ++ some e :: B ∧ i = j + (A.flatMap itemSlots).length + e.lead.length := by
  induction items generalizing j with
  | nil => exact absurd h List.not_mem_nil
  | cons x items ih =>
    cases x with
    | none =>
      obtain ⟨hb, A, B, rfl, hi⟩ := ih h
      refine ⟨hb, none :: A, B, rfl, ?_⟩
      rw [List.flatMap_cons, List.length_append]
      have hone : (itemSlots none).length = 1 := rfl
      omega
    | some x =>
      rcases List.mem_cons.mp h with heq | h
      · obtain ⟨rfl, hrest⟩ := Prod.mk.inj heq
        obtain ⟨rfl, rfl⟩ := Prod.mk.inj hrest
        exact ⟨rfl, [], items, rfl, rfl⟩
      · obtain ⟨hb, A, B, rfl, hi⟩ := ih h
        refine ⟨hb, some x :: A, B, rfl, ?_⟩
        rw [List.flatMap_cons, List.length_append]
        have hitem : (itemSlots (some x)).length = x.slots.length := rfl
        omega

theorem ok_placed (hw : w.Of v) {p : Block × Nat × Entry} (hp : p ∈ w.placed) : p.2.2.Ok := by
  obtain ⟨b, i, e⟩ := p
  obtain ⟨-, A, B, hitems, -⟩ := mem_placed hp
  exact hw.ok e (by rw [hitems]; exact List.mem_append_right A List.mem_cons_self)

theorem getElem?_longSlots {q : Nat} (hq : q < m) :
    (longSlots name ck m)[m - 1 - q]? = some (.long (q + 1) ck (piece name (q + 1))) := by
  induction m with
  | zero => exact absurd hq (Nat.not_lt_zero q)
  | succ m ih =>
    by_cases heq : q = m
    · subst heq
      have hzero : q + 1 - 1 - q = 0 := by omega
      rw [hzero]
      rfl
    · have hplace : m + 1 - 1 - q = m - 1 - q + 1 := by omega
      rw [hplace, longSlots, List.getElem?_cons_succ]
      exact ih (by omega)

theorem takeWhile_range {f : Nat → Bool} (hle : n ≤ m) (hbelow : ∀ p < n, f p = true) (hend : n < m → f n = false) :
    ((List.range m).takeWhile f).length = n := by
  obtain ⟨k, rfl⟩ := Nat.exists_eq_add_of_le hle
  rw [List.range_add, List.takeWhile_append_of_pos fun p hp => hbelow p (List.mem_range.mp hp), List.length_append,
    List.length_range]
  cases k with
  | zero => rfl
  | succ k =>
    rw [List.range_succ_eq_map, List.map_cons, List.takeWhile_cons_of_neg]
    · rfl
    · rw [Nat.add_zero, hend (by omega)]
      exact Bool.false_ne_true

theorem lfnUnit_ne_zero (hnul : ∀ c ∈ name, c ≠ 0) (hj : j < name.length) : lfnUnit name j ≠ 0x0000 := by
  rw [lfnUnit, if_pos hj]
  refine (setWidth_ne _ (hnul _ ?_)).1
  rw [List.getD_eq_getElem?_getD, List.getElem?_eq_getElem hj]
  exact List.getElem_mem hj

theorem rawChar_eq (hw : w.Of v) (hp : (b, i, e) ∈ w.placed) (hb : de.block = b) (hi : de.slot = i)
    (hlong : e.long = some name) (hj : j < 13 * lfnEntries name) : rawChar v de j = lfnUnit name j := by
  obtain ⟨rfl, A, B, hitems, hplace⟩ := mem_placed hp
  have hlead := lead_of_long hlong
  have hlen : e.lead.length = lfnEntries name := by rw [hlead, length_longSlots]
  have hreads := hw.reads.left
  rw [hitems, List.flatMap_append, List.flatMap_cons] at hreads
  have hentry : Reads v.kind (blockAt v w.block) (0 + (A.flatMap itemSlots).length) e.lead := hreads.right.left.left
  have hq : j / 13 < lfnEntries name := by omega
  have hslot := hentry (lfnEntries name - 1 - j / 13) _ (by rw [hlead]; exact getElem?_longSlots hq)
  have hat : 0 + (A.flatMap itemSlots).length + (lfnEntries name - 1 - j / 13) = de.slot - 1 - j / 13 := by omega
  rw [hat] at hslot
  have hget := congrArg (fun l => l[j % 13]?) (long_of_read hslot).2.2.2.2
  dsimp only [piece] at hget
  rw [List.getElem?_map, List.getElem?_map, List.getElem?_range (by omega)] at hget
  have hpos : (j / 13 + 1 - 1) * 13 + j % 13 = j := by omega
  rw [Option.map_some, Option.map_some, hpos] at hget
  unfold rawChar
  rw [hb]
  exact Option.some.inj hget

theorem ownLength_eq (hw : w.Of v) (hp : (b, i, e) ∈ w.placed) (hb : de.block = b) (hi : de.slot = i)
    (hcount : de.lfnCount = e.lead.length) : ownLength v de = e.longLength := by
  unfold ownLength Entry.longLength
  cases hlong : e.long with
  | none =>
    rw [hcount, lead_of_plain hlong]
    rfl
  | some name =>
    have hnul := ((ok_placed hw hp).long name hlong).2.2
    have hle := @length_le_lfnEntries name
    rw [hcount, lead_of_long hlong, length_longSlots, Option.getD_some]
    refine takeWhile_range hle (fun q hq => ?_) fun hlt => ?_
    · rw [rawChar_eq hw hp hb hi hlong (by omega)]
      exact decide_eq_true (lfnUnit_ne_zero hnul hq)
    · rw [rawChar_eq hw hp hb hi hlong hlt, lfnUnit, if_neg (Nat.lt_irrefl _), if_pos rfl]
      rfl

theorem longShown_own (hnul : ∀ c ∈ name, c ≠ 0) (h : name.length % 13 ≠ 0 → chars name.length = 0x0000) :
    longShown chars name = shown name := by
  rw [longShown_eq hnul]
  cases hrest : 13 * lfnEntries name - name.length with
  | zero => exact List.append_nil _
  | succ k =>
    have hmod : name.length % 13 ≠ 0 := by
      unfold lfnEntries at hrest
      omega
    have hend : spell name 0 chars name.length = 0x0000 := (if_neg (by omega)).trans (h hmod)
    rw [lfnName, if_pos hend]
    exact List.append_nil _

theorem Entry.leaves_of_le (h : e.longLength ≤ n) : e.leaves chars n = chars n := by
  unfold Entry.leaves
  cases hlong : e.long with
  | none => rfl
  | some l =>
    rw [Entry.longLength, hlong, Option.getD_some] at h
    exact if_neg (by omega)

theorem Listed.own (h : Listed chars ps ds last) (hok : ∀ p ∈ ps, p.2.2.Ok)
    (hlen : ∀ p ∈ ps, ∀ d : Dirent, d.block = p.1 → d.slot = p.2.1 → d.lfnCount = p.2.2.lead.length →
      ownLength v d = p.2.2.longLength)
    (hstack : ∀ d ∈ ds, ownLength v d % 13 ≠ 0 → chars (ownLength v d) = 0x0000)
    (hlonger : ds.Pairwise fun x y => ownLength v y % 13 ≠ 0 → ownLength v x ≤ ownLength v y) :
    List.Forall₂ ShowsOwn ps ds := by
  induction h with
  | nil => exact .nil
  | @cons chars last p d ps ds hd _ ih =>
    obtain ⟨hfirst, hrest⟩ := List.pairwise_cons.mp hlonger
    have hp := hok p List.mem_cons_self
    have hpd := hlen p List.mem_cons_self d hd.block hd.slot hd.lfnCount
    have hself := hstack d List.mem_cons_self
    rw [hpd] at hself
    refine .cons ⟨hd.shows hp, ?_⟩ (ih (fun q hq => hok q (List.mem_cons_of_mem p hq))
      (fun q hq => hlen q (List.mem_cons_of_mem p hq)) (fun x hx hmod => ?_) hrest)
    · rw [hd.name]
      unfold Entry.shownWith Entry.ownName
      cases hlong : p.2.2.long with
      | none => rfl
      | some l =>
        rw [Entry.longLength, hlong, Option.getD_some] at hself
        exact longShown_own (hp.long l hlong).2.2 hself
    · have hle := hfirst x hx hmod
      rw [hpd] at hle
      rw [Entry.leaves_of_le hle]
      exact hstack x (List.mem_cons_of_mem d hx) hmod

end Ezos.Fat

/-!
# The directory tree of a volume

A plan says which directories a volume has, what their blocks hold, and which clusters the chains take. The
entries other than '.' and '..' refer to chains that have no cluster in common, and the directories are a forest
below the root. Chains that no entry refers to are listed as lost.
-/

namespace Ezos.Fat

open Lib.Memory Lib.Chains Lib.Forests

def entriesOf (ws : List View) : List Entry := ws.flatMap fun w => w.items.reduceOption

/-- '.' and '..' as `fat_mkdir` writes them. -/
def dotEntry (d : Nat) : Entry := { long := none, short := { sn := dotName, isDir := true, first := d, size := 0 } }
def dotDotEntry (p : Nat) : Entry :=
  { long := none, short := { sn := dotDotName, isDir := true, first := p, size := 0 } }

def Entry.isDots (e : Entry) : Bool := e.long.isNone && (e.short.sn == dotName || e.short.sn == dotDotName)

def realsOf (ws : List View) : List Entry := (entriesOf ws).filter fun e => !e.isDots
def dotsOf (ws : List View) : List Entry := (entriesOf ws).filter Entry.isDots

def refsOf (es : List Entry) : List Nat := (es.map fun e => e.short.first).filter fun c => decide (2 ≤ c)

def kidsOf (es : List Entry) : List Nat := (es.filter fun e => e.short.isDir).map fun e => e.short.first

structure Formed (v : Vol) : Prop where
  sized : Sized v
  readable : ∀ b, v.unreadable b = false
  sector : v.info.bytesPerSector = 512
  cluster : 0 < v.info.sectorsPerCluster
  area : v.kind ≠ .fat32 → 0 < v.info.rootDirSectors
  count : v.info.clusterCount ≠ 0

structure Plan where
  dirs : List Nat
  views : Nat → List View
  chain : Nat → List Nat
  rank : Nat → Nat
  lost : List Nat

def Plan.reals (P : Plan) (d : Nat) : List Entry := realsOf (P.views d)
def Plan.dots (P : Plan) (d : Nat) : List Entry := dotsOf (P.views d)
def Plan.refs (P : Plan) (d : Nat) : List Nat := refsOf (P.reals d)
def Plan.kids (P : Plan) (d : Nat) : List Nat := kidsOf (P.reals d)

def rootRefs (v : Vol) : List Nat := if v.kind = .fat32 then [v.info.rootCluster] else []

def Plan.kept (P : Plan) (v : Vol) : List Nat := rootRefs v ++ P.dirs.flatMap P.refs

def blocksOf (v : Vol) (chain : Nat → List Nat) (d : Nat) : List Block :=
  if d = 0 ∧ v.kind ≠ .fat32 then (List.range v.info.rootDirSectors).map .root else (chain d).map .cluster

structure Entry.Sound (v : Vol) (chain : Nat → List Nat) (e : Entry) : Prop where
  proper : ∀ name, e.ShownAs name → isDotName name = false
  dir : e.short.isDir = true → 2 ≤ e.short.first
  need : e.short.isDir = false → 2 ≤ e.short.first → dataClusters v e.short.size ≤ (chain e.short.first).length

structure Laid (v : Vol) (chain : Nat → List Nat) (d : Nat) (ws : List View) : Prop where
  blocks : ws.map View.block = blocksOf v chain d
  views : ∀ w ∈ ws, w.Of v
  tidy : Tidy ws

structure Tree (v : Vol) (P : Plan) : Prop where
  formed : Formed v
  owned : Owned v P.chain (P.lost ++ P.kept v)
  laid : ∀ d ∈ P.dirs, Laid v P.chain d (P.views d)
  forest : Forest P.kids (rootDirClusterValue v) P.rank P.dirs
  sound : ∀ d ∈ P.dirs, ∀ e ∈ P.reals d, e.Sound v P.chain
  rootDots : P.dots (rootDirClusterValue v) = []
  dots : ∀ p ∈ P.dirs, ∀ d ∈ P.kids p, (P.dots d).Perm [dotEntry d, dotDotEntry p]

variable {v v' : Vol} {P : Plan} {d p c r : Nat} {e : Entry} {es es' : List Entry} {ws ws' : List View} {b : Block}
  {name : Str} {junk : Junk} {de : Dirent}

theorem mem_refsOf : c ∈ refsOf es ↔ (∃ e ∈ es, e.short.first = c) ∧ 2 ≤ c := by
  unfold refsOf
  rw [List.mem_filter, List.mem_map, decide_eq_true_eq]

theorem mem_kidsOf : c ∈ kidsOf es ↔ ∃ e ∈ es, e.short.isDir = true ∧ e.short.first = c := by
  unfold kidsOf
  simp only [List.mem_map, List.mem_filter, and_assoc]

theorem refsOf_perm (h : es.Perm es') : (refsOf es).Perm (refsOf es') := (h.map _).filter _

theorem kidsOf_perm (h : es.Perm es') : (kidsOf es).Perm (kidsOf es') := (h.filter _).map _

theorem refsOf_cons : refsOf (e :: es) = (if 2 ≤ e.short.first then [e.short.first] else []) ++ refsOf es := by
  unfold refsOf
  rw [List.map_cons, List.filter_cons]
  split <;> rename_i h <;> simp only [decide_eq_true_eq] at h
  · rw [if_pos h]
    rfl
  · rw [if_neg h]
    rfl

theorem kidsOf_cons : kidsOf (e :: es) = (if e.short.isDir then [e.short.first] else []) ++ kidsOf es := by
  unfold kidsOf
  rw [List.filter_cons]
  split <;> rfl

theorem entriesOf_append : entriesOf (ws ++ ws') = entriesOf ws ++ entriesOf ws' := List.flatMap_append

theorem entriesOf_cons {w : View} : entriesOf (w :: ws) = w.items.reduceOption ++ entriesOf ws := List.flatMap_cons

theorem realsOf_cons (h : (entriesOf ws).Perm (e :: entriesOf ws')) (he : e.isDots = false) :
    (realsOf ws).Perm (e :: realsOf ws') ∧ (dotsOf ws).Perm (dotsOf ws') := by
  constructor
  · have hf := h.filter fun e => !e.isDots
    rwa [List.filter_cons_of_pos (by rw [he]; rfl)] at hf
  · have hf := h.filter Entry.isDots
    rwa [List.filter_cons_of_neg (by rw [he]; exact Bool.false_ne_true)] at hf

theorem placed_entries (b : Block) (i : Nat) (items : List Item) :
    (placed b i items).map (fun q => q.2.2) = items.reduceOption := by
  induction items generalizing i with
  | nil => rfl
  | cons x items ih =>
    cases x with
    | none => rw [placed, ih, List.reduceOption_cons_of_none]
    | some e => rw [placed, List.map_cons, ih, List.reduceOption_cons_of_some]

theorem map_placed (ws : List View) : (ws.flatMap View.placed).map (fun q => q.2.2) = entriesOf ws := by
  unfold entriesOf
  rw [List.map_flatMap]
  exact List.flatMap_congr fun w _ => placed_entries w.block 0 w.items

theorem text_dotName : sn11ToStr (memOf dotName) = [dot] := by decide

theorem text_dotDotName : sn11ToStr (memOf dotDotName) = [dot, dot] := by decide

theorem isDots_shown (he : e.isDots = true) (hs : e.ShownAs name) : isDotName name = true := by
  obtain ⟨long, sn, isDir, first, size⟩ := e
  unfold Entry.isDots at he
  rw [Bool.and_eq_true, Bool.or_eq_true, Option.isNone_iff_eq_none] at he
  obtain ⟨rfl, hsn⟩ := he
  have hname : name = sn11ToStr (memOf sn) := hs
  rcases hsn with hsn | hsn
  · obtain rfl : sn = dotName := LawfulBEq.eq_of_beq hsn
    rw [hname, text_dotName]
    decide
  · obtain rfl : sn = dotDotName := LawfulBEq.eq_of_beq hsn
    rw [hname, text_dotDotName]
    decide

theorem mem_realsOf : e ∈ realsOf ws ↔ e ∈ entriesOf ws ∧ e.isDots = false := by
  unfold realsOf
  rw [List.mem_filter, Bool.not_eq_true']

theorem mem_dotsOf : e ∈ dotsOf ws ↔ e ∈ entriesOf ws ∧ e.isDots = true := List.mem_filter

namespace Tree

theorem mem_heads (hc : c ∈ P.kept v) : c ∈ P.lost ++ P.kept v := List.mem_append_right P.lost hc

theorem ref_kept (hd : d ∈ P.dirs) (hc : c ∈ P.refs d) : c ∈ P.kept v :=
  List.mem_append_right _ (List.mem_flatMap.mpr ⟨d, hd, hc⟩)

theorem dir_cases (h : Tree v P) (hd : d ∈ P.dirs) : (d = 0 ∧ v.kind ≠ .fat32) ∨ d ∈ P.kept v := by
  by_cases hroot : d = rootDirClusterValue v
  · by_cases hk : v.kind = .fat32
    · refine Or.inr (List.mem_append_left _ ?_)
      rw [hroot, rootDirClusterValue, if_pos hk, rootRefs, if_pos hk]
      exact List.mem_singleton_self _
    · rw [rootDirClusterValue, if_neg hk] at hroot
      exact Or.inl ⟨hroot, hk⟩
  · obtain ⟨p, hp, hdp⟩ := h.forest.parent hd hroot
    obtain ⟨e, he, hdir, rfl⟩ := mem_kidsOf.mp hdp
    refine Or.inr (ref_kept hp (mem_refsOf.mpr ⟨⟨e, he, rfl⟩, ?_⟩))
    exact (h.sound p hp e he).dir hdir

theorem within (h : Tree v P) (hc : c ∈ P.kept v) : Within v c := h.owned.within (mem_heads hc)

theorem not_area (h : Tree v P) (hc : c ∈ P.kept v) : ¬ (c = 0 ∧ v.kind ≠ .fat32) := by
  have h2 := (h.within hc).1
  omega

theorem dirBlocks_eq (h : Tree v P) (hd : d ∈ P.dirs) : dirBlocks v d = blocksOf v P.chain d := by
  unfold blocksOf
  rcases h.dir_cases hd with hzero | hkept
  · rw [if_pos hzero, hzero.1]
    exact dirBlocks_root hzero.2 (h.formed.area hzero.2)
  · rw [if_neg (h.not_area hkept)]
    exact dirBlocks_chain h.formed.sized (h.owned.chain_of (mem_heads hkept)) (h.owned.chain_nodup (mem_heads hkept))

theorem dirents_owned (h : Tree v P) (hd : d ∈ P.dirs) (junk : Junk) :
    ∃ des, List.Forall₂ (fun q de => Shows q de ∧ (Unstale v junk d → de.name = q.2.2.ownName))
      ((P.views d).flatMap View.placed) des ∧ dirents v junk d = (des, false) := by
  have hlaid := h.laid d hd
  have hview : ∀ q ∈ (P.views d).flatMap View.placed, ∃ w ∈ P.views d, w.Of v ∧ q ∈ w.placed := fun q hq => by
    obtain ⟨w, hw, hqw⟩ := List.mem_flatMap.mp hq
    exact ⟨w, hw, hlaid.views w hw, hqw⟩
  have hok : ∀ q ∈ (P.views d).flatMap View.placed, q.2.2.Ok := fun q hq => by
    obtain ⟨w, -, hof, hqw⟩ := hview q hq
    exact ok_placed hof hqw
  obtain ⟨des, last, hdes, hrun⟩ := @scan_views (freshLfn junk) v h.formed.readable (P.views d) hlaid.views hlaid.tidy
  have hall : dirents v junk d = (des, false) := by
    unfold dirents
    rw [h.dirBlocks_eq hd, ← hlaid.blocks]
    exact hrun
  refine ⟨des, ?_, hall⟩
  by_cases hun : Unstale v junk d
  · obtain ⟨hstack, hlonger⟩ := hun
    rw [hall] at hstack hlonger
    refine (hdes.own hok (fun q hq de hb hi hcount => ?_) hstack hlonger).imp fun q de hq => ⟨hq.toShows, fun _ => hq.own⟩
    obtain ⟨w, -, hof, hqw⟩ := hview q hq
    exact ownLength_eq hof hqw hb hi hcount
  · exact (hdes.shows hok).imp fun q de hq => ⟨hq, fun hno => absurd hno hun⟩

theorem dirents_shown (h : Tree v P) (hd : d ∈ P.dirs) (junk : Junk) :
    ∃ des, List.Forall₂ Shows ((P.views d).flatMap View.placed) des ∧ dirents v junk d = (des, false) := by
  obtain ⟨des, hdes, hrun⟩ := h.dirents_owned hd junk
  exact ⟨des, hdes.imp fun _ _ hq => hq.1, hrun⟩

end Tree

theorem forall₂_mem_right {α β : Type} {R : α → β → Prop} {l : List α} {m : List β} (h : List.Forall₂ R l m)
    {y : β} (hy : y ∈ m) : ∃ x ∈ l, R x y := by
  induction h with
  | nil => exact absurd hy List.not_mem_nil
  | cons hr _ ih =>
    rcases List.mem_cons.mp hy with rfl | hy
    · exact ⟨_, List.mem_cons_self, hr⟩
    · obtain ⟨x, hx, hxy⟩ := ih hy
      exact ⟨x, List.mem_cons_of_mem _ hx, hxy⟩

theorem forall₂_mem_left {α β : Type} {R : α → β → Prop} {l : List α} {m : List β} (h : List.Forall₂ R l m)
    {x : α} (hx : x ∈ l) : ∃ y ∈ m, R x y := by
  obtain ⟨y, hy, hxy⟩ := forall₂_mem_right h.flip hx
  exact ⟨y, hy, hxy⟩

namespace Tree

theorem find_some (h : Tree v P) (hd : d ∈ P.dirs) (hf : fatFindEntry v junk d name = some de) :
    ∃ q ∈ (P.views d).flatMap View.placed, Shows q de ∧ nameEq de.name name = true ∧
      (Unstale v junk d → de.name = q.2.2.ownName) := by
  obtain ⟨des, hdes, hrun⟩ := h.dirents_owned hd junk
  unfold fatFindEntry at hf
  rw [hrun] at hf
  obtain ⟨q, hq, hshow, hown⟩ := forall₂_mem_right hdes (List.mem_of_find?_eq_some hf)
  have hname := @List.find?_some _ (fun e : Dirent => nameEq e.name name) _ _ hf
  exact ⟨q, hq, hshow, hname, hown⟩

end Tree
end Ezos.Fat
