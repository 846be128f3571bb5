import Ezos.Types

/-!
# Tags and entities of the page parser (`ezos_rs/src/html.rs`)

A name is looked up as the list of its bytes. In the source a comparison of the lengths and of
the first bytes goes before the comparison of the names and follows from it.
-/

namespace Ezos.Html

set_option autoImplicit false

def ascii (s : String) : List U8 := s.toList.map fun c => BitVec.ofNat 8 c.toNat

def nodeText : U8 := 0
def nodeBlock : U8 := 1
def nodeBr : U8 := 2
def nodeHr : U8 := 3
def nodeImg : U8 := 4

def sBold : U8 := 0x01
def sItalic : U8 := 0x02
def sUnder : U8 := 0x04
def sMono : U8 := 0x08
def sPre : U8 := 0x10
def sStrike : U8 := 0x20

def tOther : U8 := 0
def tP : U8 := 1
def tDiv : U8 := 2
def tBr : U8 := 3
def tH1 : U8 := 4
def tH2 : U8 := 5
def tH3 : U8 := 6
def tH4 : U8 := 7
def tH5 : U8 := 8
def tH6 : U8 := 9
def tUl : U8 := 10
def tOl : U8 := 11
def tLi : U8 := 12
def tDl : U8 := 13
def tDt : U8 := 14
def tDd : U8 := 15
def tTable : U8 := 16
def tTr : U8 := 17
def tTd : U8 := 18
def tTh : U8 := 19
def tBlockquote : U8 := 20
def tPre : U8 := 21
def tHr : U8 := 22
def tCenter : U8 := 23
def tScript : U8 := 24
def tStyle : U8 := 25
def tHead : U8 := 26
def tTitle : U8 := 27
def tA : U8 := 28
def tB : U8 := 29
def tStrong : U8 := 30
def tI : U8 := 31
def tEm : U8 := 32
def tU : U8 := 33
def tS : U8 := 34
def tSpan : U8 := 35
def tCode : U8 := 36
def tTt : U8 := 37
def tSmall : U8 := 38
def tBig : U8 := 39
def tFont : U8 := 40
def tLabel : U8 := 41
def tImg : U8 := 42
def tInput : U8 := 43
def tBody : U8 := 44
def tHtml : U8 := 45
def tSection : U8 := 46
def tArticle : U8 := 47
def tHeader : U8 := 48
def tFooter : U8 := 49
def tNav : U8 := 50
def tMain : U8 := 51
def tAside : U8 := 52
def tMeta : U8 := 53
def tLink : U8 := 54
def tBase : U8 := 55
def tForm : U8 := 56
def tFieldset : U8 := 57
def tHgroup : U8 := 58
def tFigure : U8 := 59
def tFigcaption : U8 := 60
def tAddr : U8 := 61
def tDel : U8 := 62
def tIns : U8 := 63
def tQ : U8 := 64
def tAbbr : U8 := 65
def tCite : U8 := 66
def tDfn : U8 := 67
def tKbd : U8 := 68
def tSamp : U8 := 69
def tVar : U8 := 70
def tSub : U8 := 71
def tSup : U8 := 72
def tMark : U8 := 73
def tTime : U8 := 74
def tSelect : U8 := 75
def tTextarea : U8 := 76
def tButton : U8 := 77
def tOption : U8 := 78
def tCaption : U8 := 79
def tColgroup : U8 := 80
def tCol : U8 := 81
def tThead : U8 := 82
def tTbody : U8 := 83
def tTfoot : U8 := 84
def tDetails : U8 := 85
def tSummary : U8 := 86
def tDialog : U8 := 87
def tMenu : U8 := 88
def tPicture : U8 := 89
def tVideo : U8 := 90
def tAudio : U8 := 91
def tSource : U8 := 92
def tNoscript : U8 := 93
def tTemplate : U8 := 94
def tMap : U8 := 95
def tArea : U8 := 96
def tObject : U8 := 97
def tParam : U8 := 98
def tEmbed : U8 := 99
def tIframe : U8 := 100
def tCanvas : U8 := 101
def tSvg : U8 := 102

def tags : List (String × U8) :=
  [("a", tA), ("abbr", tAbbr), ("address", tAddr), ("area", tArea), ("article", tArticle),
    ("aside", tAside), ("audio", tAudio), ("b", tB), ("base", tBase), ("bdi", tOther),
    ("bdo", tOther), ("big", tBig), ("blockquote", tBlockquote), ("body", tBody), ("br", tBr),
    ("button", tButton), ("canvas", tCanvas), ("caption", tCaption), ("center", tCenter),
    ("cite", tCite), ("code", tCode), ("col", tCol), ("colgroup", tColgroup), ("dd", tDd),
    ("del", tDel), ("details", tDetails), ("dfn", tDfn), ("dialog", tDialog), ("div", tDiv),
    ("dl", tDl), ("dt", tDt), ("em", tEm), ("embed", tEmbed), ("fieldset", tFieldset),
    ("figcaption", tFigcaption), ("figure", tFigure), ("font", tFont), ("footer", tFooter),
    ("form", tForm), ("h1", tH1), ("h2", tH2), ("h3", tH3), ("h4", tH4), ("h5", tH5),
    ("h6", tH6), ("head", tHead), ("header", tHeader), ("hgroup", tHgroup), ("hr", tHr),
    ("html", tHtml), ("i", tI), ("iframe", tIframe), ("img", tImg), ("input", tInput),
    ("ins", tIns), ("kbd", tKbd), ("label", tLabel), ("li", tLi), ("link", tLink),
    ("main", tMain), ("map", tMap), ("mark", tMark), ("menu", tMenu), ("meta", tMeta),
    ("nav", tNav), ("noscript", tNoscript), ("object", tObject), ("ol", tOl),
    ("optgroup", tOther), ("option", tOption), ("output", tOther), ("p", tP),
    ("param", tParam), ("picture", tPicture), ("pre", tPre), ("progress", tOther), ("q", tQ),
    ("rp", tOther), ("rt", tOther), ("ruby", tOther), ("s", tS), ("samp", tSamp),
    ("script", tScript), ("section", tSection), ("select", tSelect), ("small", tSmall),
    ("source", tSource), ("span", tSpan), ("strike", tS), ("strong", tStrong),
    ("style", tStyle), ("sub", tSub), ("summary", tSummary), ("sup", tSup), ("svg", tSvg),
    ("table", tTable), ("tbody", tTbody), ("td", tTd), ("template", tTemplate),
    ("textarea", tTextarea), ("tfoot", tTfoot), ("th", tTh), ("thead", tThead),
    ("time", tTime), ("title", tTitle), ("tr", tTr), ("tt", tTt), ("u", tU), ("ul", tUl),
    ("var", tVar), ("video", tVideo)]

def ents : List (String × Nat) :=
  [("amp", 38), ("lt", 60), ("gt", 62), ("quot", 34), ("apos", 39), ("nbsp", 32),
    ("copy", 169), ("reg", 174), ("trade", 8482), ("hellip", 8230), ("mdash", 8212),
    ("ndash", 8211), ("lsquo", 8216), ("rsquo", 8217), ("ldquo", 8220), ("rdquo", 8221),
    ("bull", 8226), ("middot", 183), ("laquo", 171), ("raquo", 187), ("iexcl", 161),
    ("iquest", 191), ("cent", 162), ("pound", 163), ("yen", 165), ("curren", 164),
    ("brvbar", 166), ("sect", 167), ("uml", 168), ("ordf", 170), ("not", 172), ("shy", 173),
    ("ordm", 186), ("macr", 175), ("acute", 180), ("cedil", 184), ("sup1", 185), ("sup2", 178),
    ("sup3", 179), ("deg", 176), ("plusmn", 177), ("micro", 181), ("para", 182),
    ("times", 215), ("divide", 247), ("frac14", 188), ("frac12", 189), ("frac34", 190),
    ("dagger", 8224), ("permil", 8240), ("prime", 8242), ("Prime", 8243), ("lsaquo", 8249),
    ("rsaquo", 8250), ("oline", 8254), ("frasl", 8260), ("euro", 8364), ("ensp", 8194),
    ("emsp", 8195), ("thinsp", 8201), ("zwnj", 8204), ("zwj", 8205), ("lrm", 8206),
    ("rlm", 8207), ("aacute", 225), ("eacute", 233), ("egrave", 232), ("agrave", 224),
    ("ccedil", 231), ("uuml", 252), ("ouml", 246), ("auml", 228), ("szlig", 223),
    ("ntilde", 241), ("otilde", 245), ("aring", 229)]

def lower (b : U8) : U8 := if 0x41 ≤ b ∧ b ≤ 0x5A then b + 32 else b

def isSpace (b : U8) : Bool := b = 0x20 ∨ b = 0x09 ∨ b = 0x0A ∨ b = 0x0D ∨ b = 0x0C

def tagId (s : List U8) : U8 :=
  if s.length = 0 ∨ s.length > 12 then tOther
  else
    match tags.find? fun e => ascii e.1 = s.map lower with
    | some e => e.2
    | none => tOther

def isOpaque (t : U8) : Bool :=
  t ∈
    [tNoscript, tTemplate, tIframe, tSvg, tCanvas, tObject, tAudio, tVideo, tMap, tPicture]

def isBlock (t : U8) : Bool :=
  t ∈
    [tP, tDiv, tH1, tH2, tH3, tH4, tH5, tH6, tUl, tOl, tLi, tDl, tDt, tDd, tTable, tTr, tTd,
      tTh, tThead, tTbody, tTfoot, tBlockquote, tPre, tHr, tCenter, tSection, tArticle,
      tHeader, tFooter, tNav, tMain, tAside, tForm, tFieldset, tHgroup, tFigure, tFigcaption,
      tAddr, tDetails, tSummary, tDialog, tMenu, tCaption, tColgroup]

def rawTagLen (t : U8) : Nat :=
  if t = tScript then 6
  else if t = tStyle then 5
  else if t = tTitle then 5
  else if t = tNoscript then 8
  else if t = tTemplate then 8
  else 4

def saturate (n : Nat) : Nat := min n (2 ^ 32 - 1)

def digit (hex : Bool) (c : U8) : Option Nat :=
  if 0x30 ≤ c ∧ c ≤ 0x39 then some (c - 0x30).toNat
  else if hex ∧ 0x61 ≤ c ∧ c ≤ 0x66 then some ((c - 0x61).toNat + 10)
  else if hex ∧ 0x41 ≤ c ∧ c ≤ 0x46 then some ((c - 0x41).toNat + 10)
  else none

def digits (hex : Bool) : Nat → Bool → List U8 → Nat
  | v, any, [] => if any then v else 0
  | v, any, c :: s =>
    match digit hex c with
    | none => if any then v else 0
    | some d =>
      let v := saturate (saturate (v * if hex then 16 else 10) + d)
      if v > 0x10FFFF then 0 else digits hex v true s

def named (s : List U8) : Nat :=
  if 0 < s.length ∧ s.length ≤ 8 then
    match ents.find? fun e => s.length = e.1.length ∧
        (s.zip (ascii e.1)).all fun p => p.1 = p.2 ∨ lower p.1 = p.2 with
    | some e => e.2
    | none => 0
  else 0

def entityCp : List U8 → Nat
  | [] => 0
  | c :: s =>
    if c = 0x23 then
      match s with
      | [] => 0
      | x :: s' => if x = 0x78 ∨ x = 0x58 then digits true 0 false s' else digits false 0 false s
    else named (c :: s)

def encode (cp : Nat) : List U8 :=
  if cp < 0x80 then [BitVec.ofNat 8 cp]
  else if cp < 0x800 then
    [0xC0 ||| (BitVec.ofNat 8 (cp >>> 6) &&& 0x1F), 0x80 ||| BitVec.ofNat 8 (cp &&& 0x3F)]
  else if cp < 0x10000 then
    [0xE0 ||| (BitVec.ofNat 8 (cp >>> 12) &&& 0x0F), 0x80 ||| BitVec.ofNat 8 ((cp >>> 6) &&& 0x3F),
      0x80 ||| BitVec.ofNat 8 (cp &&& 0x3F)]
  else
    [0xF0 ||| (BitVec.ofNat 8 (cp >>> 18) &&& 0x07), 0x80 ||| BitVec.ofNat 8 ((cp >>> 12) &&& 0x3F),
      0x80 ||| BitVec.ofNat 8 ((cp >>> 6) &&& 0x3F), 0x80 ||| BitVec.ofNat 8 (cp &&& 0x3F)]

end Ezos.Html
