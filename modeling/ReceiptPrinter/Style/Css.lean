import ReceiptPrinter.Style.Basic

namespace ReceiptPrinter

def Alignment.name : Alignment → Text
  | .left => "left".toList
  | .center => "center".toList
  | .right => "right".toList

namespace Style

def decoration (s : Style) : Text :=
  match s.underline, s.strike with
  | true, true => "underline line-through".toList
  | true, false => "underline".toList
  | false, true => "line-through".toList
  | false, false => "none".toList

def declarations (s : Style) : List (Text × Text) :=
  [("font-weight".toList, if s.bold then "bold".toList else "normal".toList),
    ("font-size".toList, s.fontSize.plainText ++ "em".toList)] ++
  (if s.isWide then [("width".toList, "200%".toList)] else []) ++
  [("text-align".toList, s.alignment.name), ("text-decoration".toList, s.decoration)] ++
  (if s.rotated then
    [("transform".toList, "rotate(-90deg)".toList), ("display".toList, "inline-block".toList),
      ("transform-origin".toList, "left bottom".toList)]
  else [])

def css (s : Style) : Text :=
  List.intercalate [' '] (s.declarations.map fun (name, value) => name ++ ": ".toList ++ value ++ [';'])

end Style

end ReceiptPrinter
