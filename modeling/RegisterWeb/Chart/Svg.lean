import RegisterWeb.Section.Basic

/-!
The live ranges of a bank as a picture in the SVG language. Blocks are columns along the offsets of
the section, instances are rows in the order of their numbers, and each range is a bar.
-/

namespace RegisterWeb

namespace Svg

/-- A character of a text: markup is escaped, and what XML cannot hold is replaced. -/
def escapeChar (c : Char) : String :=
  match c with
  | '"' => "&#34;"
  | '\x27' => "&#39;"
  | '&' => "&amp;"
  | '<' => "&lt;"
  | '>' => "&gt;"
  | '\t' => "&#x9;"
  | '\n' => "&#xA;"
  | '\r' => "&#xD;"
  | c => if c.val < 0x20 || c.val == 0xFFFE || c.val == 0xFFFF then "�" else c.toString

def escape (s : String) : String :=
  String.join (s.toList.map escapeChar)

/-- An attribute with a number. -/
def pair (name : String) (n : Offset) : String :=
  name ++ "=\"" ++ n.text ++ "\""

def style (s : String) : String :=
  "style=\"" ++ s ++ "\""

/-- The shapes of a picture. -/
inductive Shape where
  | line (x1 y1 x2 y2 : Offset) (style : String)
  | label (x y : Offset) (text style : String)
  | bar (x y width height : Offset) (style : String)
  deriving DecidableEq, Repr

namespace Shape

def text : Shape → String
  | line x1 y1 x2 y2 s =>
    "<line " ++ pair "x1" x1 ++ " " ++ pair "y1" y1 ++ " " ++ pair "x2" x2 ++ " "
      ++ pair "y2" y2 ++ " " ++ style s ++ " />\n"
  | label x y t s =>
    "<text " ++ pair "x" x ++ " " ++ pair "y" y ++ " " ++ style s ++ " >" ++ escape t
      ++ "</text>\n"
  | bar x y w h s =>
    "<rect " ++ pair "x" x ++ " " ++ pair "y" y ++ " " ++ pair "width" w ++ " "
      ++ pair "height" h ++ " " ++ style s ++ " />\n"

end Shape

/-- A picture of the given size. -/
def document (width height : Offset) (shapes : List Shape) : String :=
  "<?xml version=\"1.0\"?>\n<!-- Generated by SVGo -->\n<svg " ++ pair "width" width ++ " "
    ++ pair "height" height
    ++ "\n     xmlns=\"http://www.w3.org/2000/svg\""
    ++ "\n     xmlns:xlink=\"http://www.w3.org/1999/xlink\">\n"
    ++ String.join (shapes.map Shape.text) ++ "</svg>\n"

/-- Where an offset of the section is drawn. -/
def column (p : Offset) : Offset :=
  80 + p * 4

/-- Where the row of an instance starts. -/
def row (i : Nat) : Offset :=
  24 + Int64.ofNat i * 16

def ofBlock (height : Offset) (b : Block) : List Shape :=
  let x := column b.start
  [.line x 20 x height "stroke:lightgray;stroke-width:1",
    .label (x + 2) 16 ("bb_" ++ toString b.id ++ "@" ++ b.start.text)
      "font-family:monospace;font-size:8px;fill:gray"]

def ofRange (y : Offset) (r : Range) : Shape :=
  .bar (column r.start) (y + 2) ((r.stop - r.start) * 4) 12 "fill:steelblue;stroke:none"

def ofInstance (i : LiveInstance) : List Shape :=
  let y := row i.index
  .label 4 (y + 12) (toString i.index ++ ": " ++ i.inst.text)
      "font-family:monospace;font-size:10px;fill:black"
    :: i.ranges.map (ofRange y)

end Svg

namespace Result

/-- The picture of the live ranges of a bank. -/
def svg (r : Result) (bank : Bank) : String :=
  let instances := r.live.inBank bank
  let stop := match r.graph.blocks.back? with
    | some b => b.stop
    | none => 0
  let height := Svg.row instances.length
  Svg.document (Svg.column stop + 16) height
    (r.graph.blocks.toList.flatMap (Svg.ofBlock height) ++ instances.flatMap Svg.ofInstance)

end Result

end RegisterWeb
