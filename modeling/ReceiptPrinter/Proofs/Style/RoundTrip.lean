import ReceiptPrinter.Style.Json
import ReceiptPrinter.Proofs.Json.Precision
import ReceiptPrinter.Proofs.Json.RoundTrip

namespace ReceiptPrinter

open Json

theorem Alignment.named_name (a : Alignment) : named a.name = some a := by
  cases a <;> decide

theorem SizeScale.named_name (s : SizeScale) : named s.name = some s := by
  cases s <;> decide

theorem WidthMode.named_name (w : WidthMode) : named w.name = some w := by
  cases w <;> decide

theorem Json.Value.name?_ofText {α : Type} (nothing : Value → Bool) {named : Text → Option α}
    {t : Text} {a : α} (h : named t = some a) : (Value.ofText t).name? nothing named = some a := by
  rw [Value.name?, Value.ofText, Value.readName, h]
  rfl

namespace Style

def IsFinite (s : Style) : Prop := ∀ x ∈ s.scale, x.isFinite = true

/-- What is left of a style when it is written and read. An infinite scale has no literal. -/
def settled (s : Style) : Style := { s with scale := s.scale.filter Number.Single.isFinite }

theorem settled_eq_self_iff {s : Style} : s.settled = s ↔ s.IsFinite := by
  have hs : s.settled = s ↔ s.scale.filter Number.Single.isFinite = s.scale :=
    ⟨fun h => congrArg Style.scale h, fun h => by rw [settled, h]⟩
  rw [hs, IsFinite]
  cases s.scale <;> simp

def parts (s : Style) : List Value :=
  [.bool s.bold, .ofText s.size.name, .ofText s.width.name, .ofText s.alignment.name,
    .bool s.underline, .bool s.strike, .bool s.rotated, .bool s.emphasis]

theorem isWritten_parts (s : Style) : ∀ v ∈ s.parts, v.IsWritten := by
  simp only [parts, List.forall_mem_cons]
  exact ⟨.bool _, .text _, .text _, .text _, .bool _, .bool _, .bool _, .bool _, by simp⟩

theorem storable_parts (s : Style) (levels : Nat) : ∀ v ∈ s.parts, v.storable levels = true := by
  simp only [parts, List.forall_mem_cons]
  exact ⟨rfl, rfl, rfl, rfl, rfl, rfl, rfl, rfl, by simp⟩

theorem isWritten_scaleValue (x : Number.Single) : (scaleValue x).IsWritten := by
  rw [scaleValue]
  split
  · exact .number (Literal.isWritten_ofSingle x)
  · exact .null

theorem storable_scaleValue (x : Number.Single) (levels : Nat) : (scaleValue x).storable levels = true := by
  rw [scaleValue]
  split
  · next hf =>
    obtain ⟨y, hy, -⟩ := Literal.exists_double?_ofSingle hf
    rw [Value.storable, hy]
    exact Bool.or_true _
  · rfl

theorem scale?_scaleValue (x : Number.Single) :
    scale? (scaleValue x) = some ((some x).filter Number.Single.isFinite) := by
  rw [scaleValue, Option.filter_some]
  split
  · next hf => rw [scale?, Literal.single?_ofSingle hf, Option.map_some]
  · rfl

variable {s : Style}

theorem mem_toValue {m : Text × Value} (h : m ∈ keys.zip s.parts ++
    s.scale.toList.map fun x => (scaleKey, scaleValue x)) :
    m.2 ∈ s.parts ∨ ∃ x ∈ s.scale, m.2 = scaleValue x := by
  obtain h | h := List.mem_append.mp h
  · exact Or.inl (List.of_mem_zip h).2
  · obtain ⟨x, hx, rfl⟩ := List.mem_map.mp h
    exact Or.inr ⟨x, Option.mem_toList.mp hx, rfl⟩

theorem isWritten_toValue (s : Style) : s.toValue.IsWritten := by
  apply Value.IsWritten.object
  intro m hm
  obtain hp | ⟨x, -, hv⟩ := mem_toValue hm
  · exact s.isWritten_parts _ hp
  · rw [hv]
    exact isWritten_scaleValue x

theorem storable_toValue (s : Style) (levels : Nat) : s.toValue.storable (levels + 1) = true := by
  apply Value.storable_ofMembers
  intro m hm
  obtain hp | ⟨x, -, hv⟩ := mem_toValue hm
  · exact s.storable_parts levels _ hp
  · rw [hv]
    exact storable_scaleValue x levels

theorem ofParts?_parts (nothing : Value → Bool) {v : Value} {scale : Option Number.Single}
    (hv : scale? v = some scale) : ofParts? nothing s.parts v = some { s with scale } := by
  have hs := Value.name?_ofText nothing s.size.named_name
  have hw := Value.name?_ofText nothing s.width.named_name
  have ha := Value.name?_ofText nothing s.alignment.named_name
  rw [parts, ofParts?, hs, hw, ha, hv]
  rfl

theorem ofValue?_toValue (nothing : Value → Bool) (s : Style) :
    ofValue? nothing s.toValue = some s.settled := by
  have hp : ofValue? nothing s.toValue =
      ofParts? nothing s.parts ((s.scale.map scaleValue).getD .null) := by
    obtain ⟨bold, size, width, alignment, underline, strike, rotated, emphasis, scale⟩ := s
    cases scale <;> rfl
  rw [hp]
  refine ofParts?_parts nothing ?_
  cases hs : s.scale with
  | none => rfl
  | some x => exact scale?_scaleValue x

-- An infinite scale is written as nothing, so a style with one does not come back.
example : ofValue? Value.isNull (toValue { scale := some ⟨false, 0x7f800000, le_rfl⟩ }) = some {} := by
  decide

end Style

end ReceiptPrinter
