import Ezos.Html.Tables
import Ezos.Lib.Checked

/-!
# The page parser (`ezos_rs/src/html.rs`)

The buffers are lists of the length that the caller states for them; every access to them and to
the page is checked, and every loop is given as many turns as there are bytes left. Positions,
counts and capacities are natural numbers: a page and its buffers lie in one 32-bit address
space, so that no sum the source forms for them wraps.
-/

namespace Ezos.Html

open Lib Lib.Checked

set_option autoImplicit false

structure HtmlNode where
  textOff : U16
  textLen : U16
  hrefOff : U16
  kind : U8
  tag : U8
  style : U8
  level : U8

structure Arena where
  out : List U8
  used : Nat

/-- `text` is `text`, `text_cap` and `tlen`, and `href` is `href`, `href_cap` and `hlen`. -/
structure HP where
  src : List U8
  i : Nat
  nodes : List HtmlNode
  ncount : Nat
  text : Arena
  href : Arena
  links : Nat
  truncated : Bool
  runStart : Nat
  style : U8
  hrefOff : U16
  pre : U32
  sp : Nat
  st : List U8
  listDepth : Int

def put (h : HP) (b : U8) : Prog HP :=
  if h.text.used ≥ h.text.out.length then pure { h with truncated := true }
  else do
    let out ← store h.text.out h.text.used b
    pure { h with text := ⟨out, h.text.used + 1⟩ }

def emit (h : HP) (kind tag level : U8) (off len : Nat) (hrefOff : U16) : Prog HP :=
  if h.ncount ≥ h.nodes.length then pure { h with truncated := true }
  else do
    let nodes ← store h.nodes h.ncount
      ⟨BitVec.ofNat 16 off, BitVec.ofNat 16 len, hrefOff, kind, tag, h.style, level⟩
    pure { h with nodes := nodes, ncount := h.ncount + 1 }

def flush (h : HP) : Prog HP :=
  if h.text.used > h.runStart then do
    let h ← emit h nodeText tOther 0 h.runStart (h.text.used - h.runStart) h.hrefOff
    pure { h with runStart := h.text.used }
  else pure { h with runStart := h.text.used }

def stBytes : Nat := 5

def push (h : HP) (tag : U8) : Prog HP :=
  if (h.sp + 1) * stBytes > h.st.length then pure { h with truncated := true }
  else do
    let st ← storeAll h.st (h.sp * stBytes)
      [tag, h.style, h.hrefOff.setWidth 8, (h.hrefOff >>> 8).setWidth 8, h.pre.setWidth 8]
    pure { h with st := st, sp := h.sp + 1 }

/-- The loop of `pop_to` with `k` elements left to look at. -/
def popTo (h : HP) (tag : U8) : Nat → Prog HP
  | 0 => pure { h with sp := 0, style := 0, hrefOff := 0, pre := 0 }
  | k + 1 => do
    let t ← load h.st (k * stBytes)
    let style ← load h.st (k * stBytes + 1)
    let lo ← load h.st (k * stBytes + 2)
    let hi ← load h.st (k * stBytes + 3)
    let pr ← load h.st (k * stBytes + 4)
    if t = tag then
      pure { h with
        style := style, hrefOff := lo.setWidth 16 ||| (hi.setWidth 16 <<< 8),
        pre := pr.setWidth 32, sp := k }
    else popTo h tag k

def hrefAdd (h : HP) (off len : Nat) : Prog (U16 × HP) :=
  if len = 0 ∨ len > 1024 then pure (0, h)
  else if off + len ≥ h.href.out.length then pure (0, { h with truncated := true })
  else do
    let out ← store h.href.out (off + len) 0
    pure (BitVec.ofNat 16 (off + len + 1),
      { h with href := ⟨out, off + len + 1⟩, links := h.links + 1 })

/-- `while j < len && !stop(at(j)) { j += 1; }` -/
def scanTo (src : List U8) (len : Nat) (stop : U8 → Bool) (j : Nat) : Prog Nat :=
  loop (fun j =>
    if j < len then do
      let c ← load src j
      if stop c then pure (.leave j) else pure (.again (j + 1))
    else pure (.leave j)) (len - j + 1) j

def looksAt (src : List U8) (i : Nat) (b : U8) : Prog Bool :=
  if i < src.length then do
    let c ← load src i
    pure (c = b)
  else pure false

def isGt (c : U8) : Bool := c = 0x3E

def afterGt (src : List U8) (j : Nat) : Prog Nat := do
  let k ← scanTo src src.length isGt j
  pure (if k < src.length then k + 1 else src.length)

def putCp (a : Arena) (cp : Nat) : Prog (Option Arena) :=
  if cp = 0 ∨ cp > 0x10FFFF ∨ (cp ≥ 0xD800 ∧ cp ≤ 0xDFFF) then pure none
  else if a.used + (encode cp).length > a.out.length then pure none
  else do
    let out ← storeAll a.out a.used (encode cp)
    pure (some ⟨out, a.used + (encode cp).length⟩)

/-- `while semi < len && semi - at <= 12 && *src.add(semi) != b';' { semi += 1; }` -/
def semicolon (src : List U8) (len at' : Nat) : Prog Nat :=
  loop (fun semi =>
    if semi < len ∧ semi - at' ≤ 12 then do
      let c ← load src semi
      if c = 0x3B then pure (.leave semi) else pure (.again (semi + 1))
    else pure (.leave semi)) (len - at' + 1) (at' + 1)

def entityLen (src : List U8) (len at' : Nat) : Prog Nat :=
  if at' < len then do
    let c ← load src at'
    if c = 0x26 then do
      let semi ← semicolon src len at'
      if semi < len then do
        let c ← load src semi
        if c = 0x3B then pure (semi - at' + 1) else pure 0
      else pure 0
    else pure 0
  else pure 0

def decodeEntity (src : List U8) (len at' : Nat) (a : Arena) : Prog (Option (Nat × Arena)) := do
  let total ← entityLen src len at'
  if total = 0 then pure none
  else do
    let body ← slice src (at' + 1) (total - 2)
    if entityCp body = 0 then pure none
    else
      match ← putCp a (entityCp body) with
      | none => pure none
      | some a => pure (some (total, a))

def entityAt (src : List U8) (len at' : Nat) (c : U8) (a : Arena) : Prog (Option (Nat × Arena)) :=
  if c = 0x26 then decodeEntity src len at' a else pure none

def foldSpace (h : HP) : Prog HP :=
  if h.text.used > h.runStart then do
    let c ← load h.text.out (h.text.used - 1)
    if c ≠ 0x20 then
      if h.text.used < h.text.out.length then do
        let out ← store h.text.out h.text.used 0x20
        pure { h with text := ⟨out, h.text.used + 1⟩ }
      else pure { h with truncated := true }
    else pure h
  else pure h

def scanTextTurn (h : HP) : Prog (Turn HP HP) :=
  if h.i < h.src.length then do
    let c ← load h.src h.i
    if c = 0x3C then pure (.leave h)
    else
      match ← entityAt h.src h.src.length h.i c h.text with
      | some (n, text) => pure (.again { h with text := text, i := h.i + n })
      | none =>
        if h.pre = 0 ∧ isSpace c then do
          let h' ← foldSpace h
          pure (.again { h' with i := h'.i + 1 })
        else if h.pre = 0 ∧ c < 0x20 then pure (.again { h with i := h.i + 1 })
        else do
          let h' ← put h c
          pure (.again { h' with i := h'.i + 1 })
  else pure (.leave h)

def scanText (h : HP) : Prog HP := loop scanTextTurn (h.src.length - h.i + 1) h

def isComment (src : List U8) (i : Nat) : Prog Bool :=
  if i + 3 < src.length then do
    let c ← slice src (i + 1) 3
    pure (c = [0x21, 0x2D, 0x2D])
  else pure false

def commentEnd (src : List U8) (j : Nat) : Prog Nat :=
  loop (fun j =>
    if j + 2 < src.length then do
      let c ← slice src j 3
      if c = [0x2D, 0x2D, 0x3E] then pure (.leave (j + 3)) else pure (.again (j + 1))
    else pure (.leave src.length)) (src.length - j + 1) j

def skipDecl (h : HP) : Prog HP := do
  let comment ← isComment h.src h.i
  if comment then do
    let i ← commentEnd h.src (h.i + 4)
    pure { h with i := i }
  else do
    let i ← afterGt h.src (h.i + 1)
    pure { h with i := i }

def rawNameEnd (c : U8) : Bool := isSpace c ∨ c = 0x3E

def nameEnd (c : U8) : Bool := isSpace c ∨ c = 0x3E ∨ c = 0x2F

def skipRawTurn (src : List U8) (tag : U8) (j : Nat) : Prog (Turn Nat Nat) :=
  if j + 1 < src.length then do
    let c ← slice src j 2
    if c = [0x3C, 0x2F] then do
      let e ← scanTo src src.length rawNameEnd (j + 2)
      let name ← slice src (j + 2) (e - (j + 2))
      if e - (j + 2) = rawTagLen tag ∧ tagId name = tag then do
        let i ← afterGt src e
        pure (.leave i)
      else pure (.again (j + 1))
    else pure (.again (j + 1))
  else pure (.leave src.length)

def skipRaw (h : HP) (tag : U8) : Prog HP := do
  let i ← loop (skipRawTurn h.src tag) (h.src.length - h.i + 1) h.i
  pure { h with i := i }

def skipOpaqueTurn (src : List U8) (tag : U8) (p : Int × Nat) : Prog (Turn (Int × Nat) Nat) :=
  if p.2 < src.length ∧ p.1 > 0 then do
    let c ← load src p.2
    if c = 0x3C ∧ p.2 + 1 < src.length then do
      let isEnd ← looksAt src (p.2 + 1) 0x2F
      let s := if isEnd then p.2 + 2 else p.2 + 1
      let e ← scanTo src src.length nameEnd s
      let name ← slice src s (e - s)
      if e > s ∧ tagId name = tag then do
        let k ← scanTo src src.length isGt e
        if k ≥ src.length then pure (.leave p.2)
        else pure (.again (if isEnd then p.1 - 1 else p.1 + 1, k + 1))
      else pure (.again (p.1, p.2 + 1))
    else pure (.again (p.1, p.2 + 1))
  else pure (.leave p.2)

def skipOpaque (h : HP) (tag : U8) : Prog HP := do
  let i ← loop (skipOpaqueTurn h.src tag) (h.src.length - h.i + 1) (1, h.i)
  pure { h with i := i }

/-! ## Attributes and the title -/

def attrEnd (c : U8) : Bool := isSpace c ∨ c = 0x3D ∨ c = 0x3E

/-- `if *used < cap { *out.add(*used) = b; *used += 1; }` -/
def Arena.add (a : Arena) (b : U8) : Prog Arena :=
  if a.used < a.out.length then do
    let out ← store a.out a.used b
    pure ⟨out, a.used + 1⟩
  else pure a

/-- Appends the value that stands in `[p, ve)`. -/
def copyValue (src : List U8) (p ve : Nat) (a : Arena) : Prog Arena :=
  loop (fun x =>
    if x.1 < ve then do
      let c ← load src x.1
      match ← entityAt src ve x.1 c x.2 with
      | some (n, a) => pure (.again (x.1 + n, a))
      | none => do
        let a ← x.2.add c
        pure (.again (x.1 + 1, a))
    else pure (.leave x.2)) (ve - p + 1) (p, a)

def valueBounds (src : List U8) (k till : Nat) : Prog (Nat × Nat) := do
  let q ← load src k
  if q = 0x22 ∨ q = 0x27 then do
    let v ← scanTo src till (fun c => c = q) (k + 1)
    pure (k + 1, v)
  else do
    let v ← scanTo src till rawNameEnd k
    pure (v, v)

def attrValue (src : List U8) (j till : Nat) (a : Arena) : Prog Arena := do
  let k ← scanTo src till (fun c => !isSpace c) j
  if k < till then do
    let c ← load src k
    if c = 0x3D then do
      let k ← scanTo src till (fun c => !isSpace c) (k + 1)
      if k < till then do
        let v ← valueBounds src k till
        copyValue src v.1 v.2 a
      else pure a
    else pure a
  else pure a

def readAttrTurn (src : List U8) (till : Nat) (name : List U8) (mark : Nat) (x : Nat × Arena) :
    Prog (Turn (Nat × Arena) (Nat × Arena)) :=
  if x.1 < till then do
    let c ← load src x.1
    if isSpace c ∨ c = 0x2F ∨ c = 0x3D then pure (.again (x.1 + 1, x.2))
    else do
      let j ← scanTo src till attrEnd x.1
      if j = x.1 then pure (.again (j + 1, x.2))
      else do
        let a ← attrValue src j till x.2
        let s ← slice src x.1 (j - x.1)
        if s.map lower = name then pure (.leave (a.used - mark, a))
        else pure (.again (j, { a with used := mark }))
  else pure (.leave (0, { x.2 with used := mark }))

def readAttr (src : List U8) (start till : Nat) (name : List U8) (a : Arena) : Prog (Nat × Arena) :=
  loop (readAttrTurn src till name a.used) (till - start + 1) (start, a)

/-- `used == mark || *out.add(used - 1) == b' '` -/
def blankBefore (mark : Nat) (a : Arena) : Prog Bool :=
  if a.used = mark then pure true
  else do
    let c ← load a.out (a.used - 1)
    pure (c = 0x20)

def titleTurn (src : List U8) (mark : Nat) (x : Nat × Arena) : Prog (Turn (Nat × Arena) Arena) :=
  if x.1 < src.length then do
    let c ← load src x.1
    if c = 0x3C then do
      let isEnd ← looksAt src (x.1 + 1) 0x2F
      if isEnd then pure (.leave x.2)
      else do
        let k ← scanTo src src.length isGt x.1
        pure (.again (k + 1, x.2))
    else if isSpace c then do
      let p ← scanTo src src.length (fun c => !isSpace c) x.1
      let blank ← blankBefore mark x.2
      if blank then pure (.again (p, x.2))
      else do
        let a ← x.2.add 0x20
        pure (.again (p, a))
    else
      match ← entityAt src src.length x.1 c x.2 with
      | some (n, a) => pure (.again (x.1 + n, a))
      | none => do
        let a ← x.2.add c
        pure (.again (x.1 + 1, a))
  else pure (.leave x.2)

/-- `while *used > mark && *out.add(*used - 1) == b' ' { *used -= 1; }` -/
def trimBlanks (mark : Nat) (a : Arena) : Prog Arena :=
  loop (fun a =>
    if a.used > mark then do
      let c ← load a.out (a.used - 1)
      if c = 0x20 then pure (.again { a with used := a.used - 1 }) else pure (.leave a)
    else pure (.leave a)) (a.used - mark + 1) a

def extractTitle (src : List U8) (at' : Nat) (a : Arena) : Prog (Nat × Arena) := do
  let b ← loop (titleTurn src a.used) (src.length - at' + 1) (at', a)
  let b ← trimBlanks a.used b
  pure (b.used - a.used, b)

end Ezos.Html

/-!
## The main loop (`html_parse_rs`)

A round reads the mark the cursor stands at and acts on it. The cascade of comparisons that a
start tag goes through is `element`, in the order of the source.
-/

namespace Ezos.Html

open Lib Lib.Checked

/-- What the cursor stands at; `j` is the end of the tag's name and `k` the `>` behind it. -/
inductive Mark
  | text
  | decl
  | lone
  | endTag (t : U8) (j : Nat)
  | startTag (t : U8) (j k : Nat)

inductive Element
  | raw | head | title | skipped | br | hr | img | a | pre | list | li | heading | block | other
  | inl (bit : U8)
  deriving DecidableEq

def styleBit (t : U8) : U8 :=
  if t = tB ∨ t = tStrong then sBold
  else if t = tI ∨ t = tEm then sItalic
  else if t = tU ∨ t = tIns then sUnder
  else if t = tS ∨ t = tDel then sStrike
  else if t = tCode ∨ t = tTt ∨ t = tKbd ∨ t = tSamp ∨ t = tVar then sMono
  else 0

def element (t : U8) : Element :=
  if t = tScript ∨ t = tStyle then .raw
  else if t = tHead then .head
  else if t = tTitle then .title
  else if isOpaque t then .skipped
  else if t = tBr then .br
  else if t = tHr then .hr
  else if t = tImg then .img
  else if t = tA then .a
  else if styleBit t ≠ 0 then .inl (styleBit t)
  else if t = tPre then .pre
  else if t = tUl ∨ t = tOl then .list
  else if t = tLi then .li
  else if tH1 ≤ t ∧ t ≤ tH6 then .heading
  else if isBlock t then .block
  else .other

def mark (h : HP) : Prog Mark := do
  let c ← load h.src h.i
  if c ≠ 0x3C then pure .text
  else do
    let bang ← looksAt h.src (h.i + 1) 0x21
    let ask ← looksAt h.src (h.i + 1) 0x3F
    if bang ∨ ask then pure .decl
    else do
      let isEnd ← looksAt h.src (h.i + 1) 0x2F
      let ns := if isEnd then h.i + 2 else h.i + 1
      let j ← scanTo h.src h.src.length nameEnd ns
      if j = ns then pure .lone
      else do
        let name ← slice h.src ns (j - ns)
        if isEnd then pure (.endTag (tagId name) j)
        else do
          let k ← scanTo h.src h.src.length isGt j
          pure (.startTag (tagId name) j k)

/-- The state of the main loop: `h`, `title_off` and `title_len`. -/
structure Page where
  h : HP
  titleOff : U16
  titleLen : Nat

def unlist (h : HP) (t : U8) : HP :=
  if (t = tUl ∨ t = tOl) ∧ h.listDepth > 0 then { h with listDepth := h.listDepth - 1 } else h

def endTag (h : HP) (t : U8) (j : Nat) : Prog HP :=
  if t = tScript ∨ t = tStyle then skipRaw h t
  else do
    let h ← flush (unlist h t)
    let h ← popTo h t h.sp
    let i ← afterGt h.src j
    pure { h with i := i }

def titleTag (p : Page) (t : U8) : Prog Page := do
  let r ← extractTitle p.h.src p.h.i p.h.href
  if r.1 > 0 ∧ r.2.used < p.h.href.out.length then do
    let out ← store r.2.out r.2.used 0
    let h ← skipRaw { p.h with href := ⟨out, r.2.used + 1⟩ } t
    pure ⟨h, BitVec.ofNat 16 (r.2.used + 1), r.1⟩
  else do
    let h ← skipRaw { p.h with href := { p.h.href with out := r.2.out } } t
    pure { p with h := h }

def imgTag (h : HP) (j k : Nat) : Prog HP := do
  let r ← readAttr h.src j k (ascii "alt") h.href
  if r.1 > 0 ∧ r.2.used < h.href.out.length then do
    let out ← store r.2.out r.2.used 0
    emit { h with href := ⟨out, r.2.used + 1⟩ } nodeImg tImg 0 (r.2.used - r.1) r.1 0
  else pure { h with href := { h.href with out := r.2.out } }

def aTag (h : HP) (t : U8) (j k : Nat) : Prog HP := do
  let h ← flush h
  let r ← readAttr h.src j k (ascii "href") h.href
  let x ← hrefAdd { h with href := { h.href with out := r.2.out } } (r.2.used - r.1) r.1
  let h ← push x.2 t
  pure { h with hrefOff := x.1 }

def blockTag (h : HP) (t level : U8) : Prog HP := do
  let h ← flush h
  let h ← emit h nodeBlock t level 0 0 0
  push h t

def emptyTag (h : HP) (kind t : U8) : Prog HP := do
  let h ← flush h
  emit h kind t 0 0 0 0

def pushTag (h : HP) (t : U8) (f : HP → HP) : Prog HP := do
  let h ← flush h
  let h ← push h t
  pure (f h)

def startTag (p : Page) (t : U8) (j k : Nat) : Prog Page :=
  match element t with
  | .raw => do pure { p with h := ← skipRaw p.h t }
  | .head => pure p
  | .title => titleTag p t
  | .skipped => do pure { p with h := ← skipOpaque p.h t }
  | .br => do pure { p with h := ← emptyTag p.h nodeBr tBr }
  | .hr => do pure { p with h := ← emptyTag p.h nodeHr tHr }
  | .img => do pure { p with h := ← imgTag p.h j k }
  | .a => do pure { p with h := ← aTag p.h t j k }
  | .inl bit => do pure { p with h := ← pushTag p.h t fun h => { h with style := h.style ||| bit } }
  | .pre => do
    pure { p with h := ← pushTag p.h t fun h => { h with style := h.style ||| sPre, pre := 1 } }
  | .list => do
    pure { p with h := ← pushTag p.h t fun h => { h with listDepth := h.listDepth + 1 } }
  | .li => do
    let lv := if p.h.listDepth > 3 then 3 else BitVec.ofInt 8 p.h.listDepth
    pure { p with h := ← blockTag p.h t lv }
  | .heading => do pure { p with h := ← blockTag p.h t (t - tH1 + 1) }
  | .block => do
    let lv := if p.h.listDepth > 0 then BitVec.ofInt 8 p.h.listDepth else 0
    pure { p with h := ← blockTag p.h t lv }
  | .other => do pure { p with h := ← push p.h t }

def act (p : Page) : Mark → Prog Page
  | .text => do pure { p with h := ← scanText p.h }
  | .decl => do pure { p with h := ← skipDecl p.h }
  | .lone => do
    let h ← put p.h 0x3C
    pure { p with h := { h with i := h.i + 1 } }
  | .endTag t j => do pure { p with h := ← endTag p.h t j }
  | .startTag t j k =>
    startTag { p with h := { p.h with i := if k < p.h.src.length then k + 1 else p.h.src.length } }
      t j k

def round (p : Page) : Prog (Turn Page Page) :=
  if p.h.i < p.h.src.length then do
    let m ← mark p.h
    let p ← act p m
    pure (.again p)
  else pure (.leave p)

structure Doc where
  html : List U8
  nodes : List HtmlNode
  text : List U8
  href : List U8
  scratch : List U8

def Doc.start (d : Doc) : Page :=
  ⟨⟨d.html, 0, d.nodes, 0, ⟨d.text, 0⟩, ⟨d.href, 0⟩, 0, false, 0, 0, 0, 0, 0, d.scratch, 0⟩, 0, 0⟩

/-- The state with which the parser returns; `stats` are its `ncount`, `text.used`, `links`,
`truncated`, `titleOff` and `titleLen`. -/
def htmlParse (d : Doc) : Prog Page := do
  let p ← loop round (d.html.length + 1) d.start
  let h ← flush p.h
  pure { p with h := h }

end Ezos.Html
