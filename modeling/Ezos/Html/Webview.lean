import Ezos.Html.Sound
import Ezos.Html.Wrap

/-!
# The layout of a page (`kernel/webview.c`)

The four buffers of the parser are lists of the length that `webview.c` gives them. A line is
trimmed with an index that may lie behind the arena of the line; `behind` is what stands there.
-/

namespace Ezos.Html

open Lib Lib.Checked

set_option autoImplicit false

def wvLinesMax : Nat := 1400

def wvPageMax : Nat := 96 * 1024

def wvMargin : Int := 6

def lineHeight : Int := 10

def fxMuted : U8 := 0x02
def fxLink : U8 := 0x04
def fxInStr : U8 := 0x08
def fxLiteral : U8 := 0x10
def fxTitle : U8 := 0x20

structure Line where
  y : U16
  indent : U8
  fs : U8
  fx : U8
  scale : U8
  textOff : U16
  textLen : U16
  href : U16

structure View where
  nodes : List HtmlNode
  text : List U8
  str : List U8
  stack : List U8
  nodeCount : Nat
  titleOff : Nat
  titleLen : Nat
  lines : List Line
  startsN : Nat
  truncated : Bool
  nextScale : Nat
  viewW : Int
  pageH : Int
  error : Int

def wvEmit (v : View) (y indent : Int) (fs fx scale : U8) (off len : Nat) (href : U16) : View :=
  if v.lines.length ≥ wvLinesMax then { v with truncated := true }
  else
    { v with
      lines := v.lines ++ [⟨BitVec.ofInt 16 y, BitVec.ofInt 8 indent, fs, fx, scale,
        BitVec.ofNat 16 off, BitVec.ofNat 16 len, href⟩] }

def wvEmitAbs (v : View) (y indent : Int) (fs fx scale : U8) (base off len : Nat) (href : U16) :
    View :=
  wvEmit v y indent fs fx scale (base + off) len href

/-- `while (e > s && src[s + e - 1] == ' ') e--;` -/
def trimEnd (src : Nat → U8) (s : Nat) : Nat → Nat
  | 0 => 0
  | e + 1 => if e + 1 > s ∧ src (s + (e + 1) - 1) = 0x20 then trimEnd src s e else e + 1

structure Look where
  indent : Int
  fs : U8
  fx : U8
  scale : Nat
  href : U16

def layRow (src : Nat → U8) (l : Look) (starts : List Nat) (nl len base : Nat) (x : View × Int)
    (k : Nat) : View × Int :=
  let s := starts.getD k 0
  let e := trimEnd src s (if k + 1 < nl then starts.getD (k + 1) 0 else len)
  if e ≤ s then x
  else
    (wvEmitAbs x.1 x.2 l.indent l.fs l.fx (BitVec.ofNat 8 l.scale) base s (e - s) l.href,
      x.2 + lineHeight * l.scale)

def maxChars (v : View) (l : Look) : Nat :=
  let avail := v.viewW - l.indent - wvMargin
  let avail := if avail < 8 * 4 then 8 * 4 else avail
  let n := (avail / (8 * l.scale)).toNat
  let n := if n < 4 then 4 else n
  if n > wvLinesMax - v.startsN then wvLinesMax - v.startsN else n

def wvLayoutRun (behind : Nat → U8) (v : View) (y : Int) (l : Look) (arena : List U8)
    (base len : Nat) : Prog (View × Int) :=
  if len = 0 then pure (v, y)
  else if maxChars v l = 0 then pure (v, y)
  else do
    let r ← utf8Wrap ((arena.drop base).take len) (maxChars v l)
      (List.replicate (wvLinesMax - v.startsN) 0)
    if r.1 = 0 then pure (v, y)
    else
      let src := fun i => (arena[base + i]?).getD (behind (base + i))
      let x := (List.range r.1).foldl (layRow src l r.2 r.1 len base) (v, y)
      pure ({ x.1 with startsN := x.1.startsN + r.1 }, x.2)

def wvBlockGap (tag level : U8) : Int :=
  if tH1 ≤ tag ∧ tag ≤ tH6 then if level ≤ 2 then 8 else 5
  else if tag = tLi ∨ tag = tDd ∨ tag = tDt then 1
  else if tag = tHr then 4
  else 3

structure Lay where
  v : View
  y : Int
  indent : Int

/-- `if (wv_line_n < WV_LINES_MAX) wv_emit(..)` -/
def wvEmitIf (v : View) (y indent : Int) (fs fx scale : U8) : View :=
  if v.lines.length < wvLinesMax then wvEmit v y indent fs fx scale 0 0 0 else v

def listIndent (level : U8) : Int := 10 + (if level > 2 then 2 else level.toNat) * 6

def layBlock (s : Lay) (tag level : U8) : Lay :=
  let y := if s.y > wvMargin + 8 then s.y + wvBlockGap tag level else s.y
  if tag = tLi then
    let indent := listIndent level
    ⟨wvEmitIf s.v y (indent - 7) 0 fxMuted 3, y + lineHeight, indent⟩
  else if tag = tUl ∨ tag = tOl then ⟨s.v, y, listIndent level⟩
  else if tH1 ≤ tag ∧ tag ≤ tH6 then
    let v := { s.v with nextScale := if level ≤ 2 then 2 else 1 }
    ⟨wvEmitIf v y 0 0 fxTitle 0, y, 0⟩
  else if tag = tBlockquote then ⟨s.v, y, 12⟩
  else ⟨s.v, y, 0⟩

def layNode (behind : Nat → U8) (s : Lay) (n : HtmlNode) : Prog Lay :=
  let off := n.textOff.toNat
  let len := n.textLen.toNat
  if n.kind = nodeText then
    if len = 0 ∨ off + len > s.v.text.length then pure s
    else do
      let look := ⟨s.indent, n.style, if n.hrefOff ≠ 0 then fxLink else 0, s.v.nextScale, n.hrefOff⟩
      let r ← wvLayoutRun behind { s.v with nextScale := 1 } s.y look s.v.text off len
      pure ⟨r.1, r.2, s.indent⟩
  else if n.kind = nodeBr then pure { s with y := s.y + lineHeight }
  else if n.kind = nodeHr then
    pure { s with v := wvEmitIf s.v (s.y + 4) wvMargin 0 fxMuted 0, y := s.y + 4 + 8 }
  else if n.kind = nodeImg then
    if len = 0 ∨ off + len > s.v.str.length then pure s
    else do
      let r ← wvLayoutRun behind s.v s.y ⟨s.indent + 8, 0, fxMuted ||| fxInStr, 1, 0⟩ s.v.str off len
      pure ⟨r.1, r.2, s.indent⟩
  else if n.kind = nodeBlock then pure (layBlock s n.tag n.level)
  else pure s

def layNodes (behind : Nat → U8) : List HtmlNode → Lay → Prog Lay
  | [], s => pure s
  | n :: ns, s =>
    if s.v.lines.length < wvLinesMax then do
      let s ← layNode behind s n
      layNodes behind ns s
    else pure s

/-- `wv_line[wv_line_n - 1].fs = 0; wv_line[wv_line_n - 1].scale = 0;` -/
def markLast (v : View) : View :=
  { v with lines := v.lines.modify (v.lines.length - 1) fun l => { l with fs := 0, scale := 0 } }

def layTitle (behind : Nat → U8) (v : View) (y : Int) : Prog (View × Int) :=
  if v.titleLen > 0 ∧ v.titleOff > 0 then do
    let off := v.titleOff - 1
    let len := if off + v.titleLen > v.str.length then v.str.length - off else v.titleLen
    let r ← wvLayoutRun behind v y ⟨wvMargin, sBold, fxTitle, 1, 0⟩ v.str off len
    pure (markLast (wvEmit r.1 (r.2 + 4) wvMargin 0 fxMuted 1 0 0 0), r.2 + 4 + 8)
  else pure (v, y)

def wvLayout (behind : Nat → U8) (msg : Nat) (v : View) : Prog View := do
  let v := { v with lines := [], startsN := 0, truncated := false, nextScale := 1 }
  let t ← layTitle behind v wvMargin
  let s ← layNodes behind (t.1.nodes.take t.1.nodeCount) ⟨t.1, t.2, 0⟩
  let y := s.y + wvMargin
  if s.v.truncated then
    pure { wvEmit s.v y wvMargin 0 (fxMuted ||| fxLiteral) 1 msg 35 0 with
      pageH := y + lineHeight + 2 }
  else pure { s.v with pageH := y }

/-- What `wv_load` and `wv_parse_mem` set before they look at the page. -/
def View.cleared (v : View) : View :=
  { v with
    error := 0, truncated := false, nodeCount := 0, titleOff := 0, titleLen := 0, lines := [],
    pageH := 20 }

def View.doc (v : View) (html : List U8) : Doc := ⟨html, v.nodes, v.text, v.str, v.stack⟩

/-- The part that `wv_load` and `wv_parse_mem` have in common. -/
def wvShow (behind : Nat → U8) (msg : Nat) (v : View) (html : List U8) : Prog View := do
  let p ← htmlParse (v.doc html)
  let v := { v with nodes := p.h.nodes, text := p.h.text.out, str := p.h.href.out, stack := p.h.st }
  if p.h.ncount ≥ 2 ^ 31 then pure { v with error := -5 }
  else
    wvLayout behind msg { v with
      nodeCount := p.h.ncount, truncated := p.h.truncated, titleLen := p.titleLen,
      titleOff := p.titleOff.toNat }

def wvParseMem (behind : Nat → U8) (msg : Nat) (v : View) (html : List U8) : Prog View :=
  if html.length = 0 ∨ html.length > wvPageMax then pure v.cleared
  else wvShow behind msg v.cleared html

/-- `rc` and `body` are what `http_fetch` returns and writes for an address that is not empty. -/
def wvLoad (behind : Nat → U8) (msg : Nat) (v : View) (rc : Int) (body : List U8) : Prog View :=
  if rc ≠ 0 then pure { v.cleared with error := rc }
  else if body.length = 0 then pure v.cleared
  else wvShow behind msg v.cleared body

def Page.widen (p : Page) (nodes : List HtmlNode) (text str stack : List U8) : Page :=
  { p with h := { p.h with
      nodes := p.h.nodes ++ nodes, text := { p.h.text with out := p.h.text.out ++ text },
      href := { p.h.href with out := p.h.href.out ++ str }, st := p.h.st ++ stack } }

def KeepsMore (q q' : Page) : Prop :=
  q.h.text.used < q'.h.text.used ∨ q.h.ncount < q'.h.ncount ∨ q.h.sp < q'.h.sp ∨
    q.h.href.used < q'.h.href.used ∨ q.titleLen < q'.titleLen

def finish (p : Page) : Prog Page := do
  pure { p with h := ← flush p.h }

/-- Something of the page is dropped for lack of space: in a state that the parser reaches, its
next step would keep more if there were more room. -/
def Drops (d : Doc) : Prop :=
  ∃ p nodes text str stack, Turns round d.start p ∧
    ((∃ q q', round p = .ok (.again q) ∧
        round (p.widen nodes text str stack) = .ok (.again q') ∧ KeepsMore q q') ∨
      ∃ q q', round p = .ok (.leave p) ∧ finish p = .ok q ∧
        finish (p.widen nodes text str stack) = .ok q' ∧ KeepsMore q q')

def Noticed (v : View) : Prop := ∃ l ∈ v.lines, l.fx &&& fxLiteral ≠ 0

def Visible (v : View) : Prop := v.truncated = true ∧ Noticed v

def TruncationShown (behind : Nat → U8) (msg : Nat) (v : View) (html : List U8) : Prop :=
  Drops (v.doc html) →
    Yields (htmlParse (v.doc html)) (fun p => p.h.truncated = true) ∧
    Yields (wvLoad behind msg v 0 html) Visible ∧ Yields (wvParseMem behind msg v html) Visible

/-! ## The lines that are laid out -/

section Lines
variable {behind : Nat → U8} {v : View} {y indent : Int} {fs fx scale : U8} {href : U16}

structure Laid (v : View) : Prop where
  plain : ∀ l ∈ v.lines, l.fx &&& fxLiteral = 0
  full : v.truncated = true → wvLinesMax ≤ v.lines.length

theorem Laid.emit (h : Laid v) (hfx : fx &&& fxLiteral = 0) (off len : Nat) :
    Laid (wvEmit v y indent fs fx scale off len href) := by
  unfold wvEmit
  split
  case isTrue hfull => exact ⟨h.plain, fun _ => hfull⟩
  case isFalse hroom =>
    constructor
    · intro l hl
      rcases List.mem_append.mp hl with hl | hl
      · exact h.plain l hl
      · obtain rfl := List.mem_singleton.mp hl
        exact hfx
    · intro ht
      exact absurd (h.full ht) hroom

theorem Laid.emitIf (h : Laid v) (hfx : fx &&& fxLiteral = 0) :
    Laid (wvEmitIf v y indent fs fx scale) := by
  unfold wvEmitIf
  split
  · exact h.emit hfx 0 0
  · exact h

theorem Laid.markLast (h : Laid v) : Laid (markLast v) := by
  constructor
  · intro l hl
    obtain ⟨i, hi⟩ := List.mem_iff_getElem?.mp hl
    rw [Html.markLast, List.getElem?_modify] at hi
    obtain ⟨l', hl', rfl⟩ := Option.map_eq_some_iff.mp hi
    have hplain := h.plain l' (List.mem_of_getElem? hl')
    split <;> exact hplain
  · intro ht
    rw [Html.markLast, List.length_modify]
    exact h.full ht

theorem Laid.row {src : Nat → U8} {l : Look} {starts : List Nat} {nl len base : Nat} {x : View × Int}
    (h : Laid x.1) (hfx : l.fx &&& fxLiteral = 0) (k : Nat) :
    Laid (layRow src l starts nl len base x k).1 := by
  unfold layRow
  dsimp only
  generalize trimEnd src (starts.getD k 0) _ = e
  split
  · exact h
  · exact h.emit hfx _ _

theorem Laid.rows {src : Nat → U8} {l : Look} {starts : List Nat} {nl len base : Nat}
    (hfx : l.fx &&& fxLiteral = 0) (ks : List Nat) {x : View × Int} (h : Laid x.1) :
    Laid (ks.foldl (layRow src l starts nl len base) x).1 := by
  induction ks generalizing x with
  | nil => exact h
  | cons k ks ih => exact ih (h.row hfx k)

theorem maxChars_le (v : View) (l : Look) : maxChars v l ≤ wvLinesMax - v.startsN := by
  simp only [maxChars]
  split_ifs <;> omega

theorem Laid.run {l : Look} (h : Laid v) (hfx : l.fx &&& fxLiteral = 0) (y : Int) (arena : List U8)
    (base len : Nat) :
    Yields (wvLayoutRun behind v y l arena base len) fun r => Laid r.1 := by
  refine yields_ite (fun _ => yields_pure h) ?_
  intro _
  refine yields_ite (fun _ => yields_pure h) ?_
  intro hmax
  have hstarts : List.replicate (wvLinesMax - v.startsN) 0 ≠ [] := by
    intro hnil
    have hle := maxChars_le v l
    rw [List.replicate_eq_nil_iff] at hnil
    omega
  refine (placed_and_fits (Nat.pos_of_ne_zero hmax) hstarts).bind ?_
  intro r _
  refine yields_ite (fun _ => yields_pure h) ?_
  intro _
  dsimp only
  generalize hx : List.foldl _ (v, y) _ = x
  have hrows : Laid x.1 := hx ▸ Laid.rows hfx (List.range r.1) h
  exact yields_pure ⟨hrows.plain, hrows.full⟩

theorem Laid.block {s : Lay} (h : Laid s.v) (tag level : U8) : Laid (layBlock s tag level).v := by
  unfold layBlock
  dsimp only
  split
  · exact h.emitIf (by decide)
  split
  · exact h
  split
  · exact Laid.emitIf ⟨h.plain, h.full⟩ (by decide)
  split
  · exact h
  · exact h

theorem Laid.node {s : Lay} (h : Laid s.v) (n : HtmlNode) :
    Yields (layNode behind s n) fun s' => Laid s'.v := by
  refine yields_ite ?_ ?_
  · intro _
    refine yields_ite (fun _ => yields_pure h) ?_
    intro _
    have hv : Laid { s.v with nextScale := 1 } := ⟨h.plain, h.full⟩
    refine (hv.run ?_ _ _ _ _).bind fun r hr => yields_pure hr
    dsimp only
    split <;> decide
  intro _
  refine yields_ite (fun _ => yields_pure h) ?_
  intro _
  refine yields_ite (fun _ => yields_pure (h.emitIf (by decide))) ?_
  intro _
  refine yields_ite ?_ ?_
  · intro _
    refine yields_ite (fun _ => yields_pure h) ?_
    intro _
    refine (h.run ?_ _ _ _ _).bind fun r hr => yields_pure hr
    change (fxMuted ||| fxInStr) &&& fxLiteral = 0
    decide
  intro _
  refine yields_ite (fun _ => yields_pure (h.block n.tag n.level)) ?_
  intro _
  exact yields_pure h

theorem Laid.nodes (ns : List HtmlNode) {s : Lay} (h : Laid s.v) :
    Yields (layNodes behind ns s) fun s' => Laid s'.v := by
  induction ns generalizing s with
  | nil => exact yields_pure h
  | cons n ns ih =>
    refine yields_ite ?_ ?_
    · intro _
      exact (h.node n).bind fun s' hs' => ih hs'
    · intro _
      exact yields_pure h

theorem Laid.title (h : Laid v) (y : Int) : Yields (layTitle behind v y) fun r => Laid r.1 := by
  refine yields_ite ?_ ?_
  · intro _
    refine (h.run (by decide) _ _ _ _).bind ?_
    intro r hr
    exact yields_pure (hr.emit (by decide) 0 0).markLast
  · intro _
    exact yields_pure h

theorem wvLayout_yields (msg : Nat) (v : View) :
    Yields (wvLayout behind msg v) fun v' => ¬ Noticed v' := by
  have hempty : Laid { v with lines := [], startsN := 0, truncated := false, nextScale := 1 } :=
    ⟨fun l hl => absurd hl List.not_mem_nil, fun h => Bool.noConfusion h⟩
  refine (hempty.title wvMargin).bind ?_
  intro t ht
  refine (Laid.nodes _ (s := ⟨t.1, t.2, 0⟩) ht).bind ?_
  intro s hs
  have hplain : ¬ ∃ l ∈ s.v.lines, l.fx &&& fxLiteral ≠ 0 := by
    rintro ⟨l, hl, hne⟩
    exact hne (hs.plain l hl)
  refine yields_ite ?_ ?_
  · intro htrunc
    refine yields_pure ?_
    rw [wvEmit, if_pos (hs.full htrunc)]
    exact hplain
  · intro _
    exact yields_pure hplain

end Lines

section Loading
variable (behind : Nat → U8) (msg : Nat) {v : View}

theorem wvShow_yields (hv : v.lines = []) (html : List U8) :
    Yields (wvShow behind msg v html) fun v' => ¬ Noticed v' := by
  refine (htmlParse_sound (v.doc html)).bind ?_
  intro p _
  refine yields_ite ?_ fun _ => wvLayout_yields msg _
  intro _
  refine yields_pure ?_
  rintro ⟨l, hl, -⟩
  change l ∈ v.lines at hl
  rw [hv] at hl
  exact List.not_mem_nil hl

variable (v : View) (html : List U8)

theorem cleared_not_noticed (n : Int) : ¬ Noticed { v.cleared with error := n } :=
  fun ⟨_, hl, _⟩ => List.not_mem_nil hl

theorem wvLoad_yields (rc : Int) : Yields (wvLoad behind msg v rc html) fun v' => ¬ Noticed v' := by
  refine yields_ite (fun _ => yields_pure (cleared_not_noticed v rc)) ?_
  intro _
  refine yields_ite (fun _ => yields_pure (cleared_not_noticed v 0)) ?_
  intro _
  exact wvShow_yields behind msg rfl html

theorem wvParseMem_yields : Yields (wvParseMem behind msg v html) fun v' => ¬ Noticed v' :=
  yields_ite (fun _ => yields_pure (cleared_not_noticed v 0)) fun _ =>
    wvShow_yields behind msg rfl html

/-- What was dropped of a page is never shown: the page shows what is claimed if and only if
nothing was dropped of it. -/
theorem truncationShown_spec :
    (TruncationShown behind msg v html ↔ ¬ Drops (v.doc html)) ∧
      Yields (wvLoad behind msg v 0 html) (fun v' => ¬ Visible v') ∧
      Yields (wvParseMem behind msg v html) fun v' => ¬ Visible v' := by
  have hload := wvLoad_yields behind msg v html 0
  have hmem := wvParseMem_yields behind msg v html
  refine ⟨⟨?_, fun hnone hdrops => absurd hdrops hnone⟩, ?_, ?_⟩
  · intro hshown hdrops
    obtain ⟨v', -, hnot, -, hnoticed⟩ := hmem.and (hshown hdrops).2.2
    exact hnot hnoticed
  · exact hload.mono fun v' hnot hvisible => hnot hvisible.2
  · exact hmem.mono fun v' hnot hvisible => hnot hvisible.2

end Loading

section Plain

theorem scanText_letters {h : HP} {n : Nat} (hsrc : h.src = List.replicate n 0x61) (hi : h.i = 0)
    (hused : h.text.used = 0) :
    Yields (scanText h) fun h' => h'.text.used = min n h.text.out.length := by
  have hlen : h.src.length = n := by rw [hsrc, List.length_replicate]
  refine yields_loop
    (fun s => s.src = h.src ∧ s.text.out.length = h.text.out.length ∧ s.i ≤ n ∧
      s.text.used = min s.i h.text.out.length) (fun s => n - s.i) ?_ ?_ (by omega)
  · rintro s ⟨hs, hcap, hle, hmin⟩
    rw [scanTextTurn, hs, hlen]
    refine yields_ite ?_ ?_
    · intro hlt
      have hload : load h.src s.i = .ok 0x61 := by
        apply load_eq
        rw [hsrc, List.getElem?_replicate, if_pos hlt]
      have hspace : ¬ (s.pre = 0 ∧ isSpace 0x61) := fun h => absurd h.2 (by decide)
      have hctl : ¬ (s.pre = 0 ∧ (0x61 : U8) < 0x20) := fun h => absurd h.2 (by decide)
      rw [hload]
      change Yields (if s.pre = 0 ∧ isSpace 0x61 then _ else if s.pre = 0 ∧ (0x61 : U8) < 0x20 then _
        else _) _
      rw [if_neg hspace, if_neg hctl]
      refine Yields.bind (P := fun s' => s'.src = h.src ∧ s'.i = s.i ∧
        s'.text.out.length = h.text.out.length ∧ s'.text.used = min (s.i + 1) h.text.out.length) ?_ ?_
      · refine yields_ite ?_ ?_
        · intro hfull
          exact yields_pure ⟨hs, rfl, hcap, by dsimp only; omega⟩
        · intro hroom
          refine (yields_store (Nat.lt_of_not_le hroom)).bind ?_
          rintro _ rfl
          refine yields_pure ⟨hs, rfl, ?_, ?_⟩
          · rw [List.length_set, hcap]
          · dsimp only
            omega
      · rintro s' ⟨hs', hi', hcap', hmin'⟩
        refine yields_pure ⟨⟨hs', hcap', ?_, ?_⟩, ?_⟩ <;> dsimp only
        · omega
        · rw [hi', hmin']
        · omega
    · intro hend
      refine yields_pure ?_
      change s.text.used = min n h.text.out.length
      rw [hmin, Nat.le_antisymm hle (Nat.le_of_not_lt hend)]
  · exact ⟨rfl, rfl, by omega, by omega⟩

theorem round_letters {p : Page} {n : Nat} (hsrc : p.h.src = List.replicate n 0x61) (hn : 0 < n)
    (hi : p.h.i = 0) (hused : p.h.text.used = 0) :
    ∃ q, round p = .ok (.again q) ∧ q.h.text.used = min n p.h.text.out.length := by
  obtain ⟨h', hrun, hkept⟩ := scanText_letters hsrc hi hused
  have hload : load p.h.src p.h.i = .ok 0x61 := by
    apply load_eq
    rw [hi, hsrc, List.getElem?_replicate, if_pos hn]
  have hlt : p.h.i < p.h.src.length := by
    rw [hi, hsrc, List.length_replicate]
    exact hn
  refine ⟨{ p with h := h' }, ?_, hkept⟩
  rw [round, if_pos hlt, mark, hload]
  change (do
    let p ← act p .text
    pure (Turn.again p)) = _
  rw [act, hrun]
  rfl

def emptyView : View where
  nodes := List.replicate 3000 ⟨0, 0, 0, 0, 0, 0, 0⟩
  text := List.replicate (40 * 1024) 0
  str := List.replicate (16 * 1024) 0
  stack := List.replicate 2048 0
  nodeCount := 0
  titleOff := 0
  titleLen := 0
  lines := []
  startsN := 0
  truncated := false
  nextScale := 1
  viewW := 420
  pageH := 20
  error := 0

def longPage : List U8 := List.replicate (40 * 1024 + 1) 0x61

theorem longPage_drops : Drops (emptyView.doc longPage) := by
  have hn : 0 < 40 * 1024 + 1 := Nat.succ_pos _
  obtain ⟨q, hq, hkept⟩ :=
    round_letters (p := (emptyView.doc longPage).start) (n := 40 * 1024 + 1) rfl hn rfl rfl
  obtain ⟨q', hq', hkept'⟩ :=
    round_letters (p := (emptyView.doc longPage).start.widen [] [0] [] []) rfl hn rfl rfl
  have hcap : (emptyView.doc longPage).start.h.text.out.length = 40 * 1024 := List.length_replicate
  have hcap' : ((emptyView.doc longPage).start.widen [] [0] [] []).h.text.out.length =
      40 * 1024 + 1 := by
    change (_ ++ [0]).length = _
    rw [List.length_append, hcap]
    rfl
  refine ⟨(emptyView.doc longPage).start, [], [0], [], [], .refl, .inl ⟨q, q', hq, hq', .inl ?_⟩⟩
  rw [hkept, hkept', hcap, hcap']
  decide

theorem not_truncationShown_long : ¬ TruncationShown (fun _ => 0) 0 emptyView longPage := by
  intro hshown
  obtain ⟨v', -, hnot, -, hnoticed⟩ :=
    (wvParseMem_yields (fun _ => 0) 0 emptyView longPage).and (hshown longPage_drops).2.2
  exact hnot hnoticed

end Plain

end Ezos.Html
