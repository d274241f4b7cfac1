import ReceiptPrinter.Json.Writer
import ReceiptPrinter.Json.Decoding
import ReceiptPrinter.Style.Css

namespace ReceiptPrinter

open Json

def Alignment.named (t : Text) : Option Alignment :=
  [left, center, right].find? (·.name == t)

namespace SizeScale

def name : SizeScale → Text
  | .normal => "normal".toList
  | .tall => "double_height".toList
  | .large => "double_width_and_height".toList

def named (t : Text) : Option SizeScale := [normal, tall, large].find? (·.name == t)

end SizeScale

namespace WidthMode

def name : WidthMode → Text
  | .normal => "normal".toList
  | .wide => "double_width".toList

def named (t : Text) : Option WidthMode := [normal, wide].find? (·.name == t)

end WidthMode

namespace Style

def keys : List Text :=
  ["bold".toList, "size_scale".toList, "width_mode".toList, "alignment".toList,
    "underline".toList, "strike".toList, "rotated90".toList, "emphasis".toList]

def scaleKey : Text := "font_scale".toList

def scaleValue (x : Number.Single) : Value :=
  if x.isFinite then .number (.ofSingle x) else .null

def toValue (s : Style) : Value :=
  .ofMembers (keys.zip
      [.bool s.bold, .ofText s.size.name, .ofText s.width.name, .ofText s.alignment.name,
        .bool s.underline, .bool s.strike, .bool s.rotated, .bool s.emphasis] ++
    s.scale.toList.map fun x => (scaleKey, scaleValue x))

def scale? : Value → Option (Option Number.Single)
  | .null => some none
  | .number l => l.single?.map some
  | _ => none

def ofParts? (nothing : Value → Bool) : List Value → Value → Option Style
  | [bold, size, width, alignment, underline, strike, rotated, emphasis], scale => do
    return {
      bold := ← bold.bool?
      size := ← size.name? nothing SizeScale.named
      width := ← width.name? nothing WidthMode.named
      alignment := ← alignment.name? nothing Alignment.named
      underline := ← underline.bool?
      strike := ← strike.bool?
      rotated := ← rotated.bool?
      emphasis := ← emphasis.bool?
      scale := ← scale? scale }
  | _, _ => none

/-- Reads an object by its keys, or an array by its places. An object may leave the scale out,
and so may an array. -/
def ofValue? (nothing : Value → Bool) : Value → Option Style
  | .object ms => do
    guard (Value.keyed ms)
    let parts ← keys.mapM (Value.only · ms)
    match Value.withKey scaleKey ms with
    | [] => ofParts? nothing parts .null
    | [scale] => ofParts? nothing parts scale
    | _ => none
  | .array items =>
    if items.length ≤ 9 then ofParts? nothing (items.take 8) (items.getD 8 .null) else none
  | _ => none

end Style

end ReceiptPrinter
