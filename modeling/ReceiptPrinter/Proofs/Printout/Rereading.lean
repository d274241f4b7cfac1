import ReceiptPrinter.Proofs.Printout.RoundTrip

namespace ReceiptPrinter

open Json

namespace Style

def read? (t : Text) : Option Style := (Value.whole? t).bind (ofValue? Value.isNull)

def json (s : Style) : Text := s.toValue.compact

theorem read?_json (s : Style) : read? s.json = some s.settled := by
  have hw := s.isWritten_toValue
  rw [read?, json, hw.whole?_of_read hw.read_compact, Option.bind_some, ofValue?_toValue]

end Style

namespace Token

/-- A token from a text that holds nothing else. It is kept as data until its kind is known. -/
def read? (t : Text) : Option Token := do
  let v ← Value.whole? t
  if v.storable Printout.depthLimit then ofValue? v else none

def json (t : Token) : Text := t.toValue.compact

theorem read?_json (t : Token) : read? t.json = some t.settled := by
  have hw := t.isWritten_toValue
  rw [read?, json, hw.whole?_of_read hw.read_compact]
  exact (if_pos (t.storable_toValue 125)).trans t.ofValue?_toValue

end Token

theorem Printout.read?_settled (p : Printout) : read? p.json = some p.settled := by
  rw [json, read?_of_read p.isWritten_toValue p.isWritten_toValue.read_compact, p.ofValue?_toValue]

/-- What is read from any text is read again from what is written for it: an infinite scale, which no
literal stands for, comes back as none, and all else stays. So it is the same value just when all its
scales are finite. -/
theorem reread_json :
    (∀ (t : Text) (s : Style), Style.read? t = some s →
      Style.read? s.json = some s.settled ∧ (Style.read? s.json = some s ↔ s.IsFinite)) ∧
    (∀ (t : Text) (k : Token), Token.read? t = some k →
      Token.read? k.json = some k.settled ∧ (Token.read? k.json = some k ↔ k.style.IsFinite)) ∧
    ∀ (t : Text) (p : Printout), Printout.read? t = some p →
      Printout.read? p.json = some p.settled ∧ (Printout.read? p.json = some p ↔ p.IsFinite) := by
  refine ⟨fun _ s _ => ⟨s.read?_json, ?_⟩, fun _ k _ => ⟨k.read?_json, ?_⟩,
    fun _ p _ => ⟨p.read?_settled, ?_⟩⟩
  · rw [s.read?_json, Option.some_inj, Style.settled_eq_self_iff]
  · rw [k.read?_json, Option.some_inj, Token.settled_eq_self_iff]
  · rw [p.read?_settled, Option.some_inj, Printout.settled_eq_self_iff]

/-- A scale that the double nearest to its literal would miss, a negative zero, and the least single
there is. -/
theorem reread_json_small :
    let written (scale : String) : String :=
      "[false,\"normal\",\"normal\",\"left\",false,false,false,false," ++ scale ++ "]"
    let s : Style := { scale := some ⟨false, 0x15ae43fd, by decide⟩ }
    let k : Token := .qr 7 { scale := some ⟨true, 0, by decide⟩ }
    let p : Printout := ⟨[.text "a\n".toList { scale := some ⟨false, 1, by decide⟩ }], [.paperCut]⟩
    (Style.read? (written "7.038531e-26").toList = some s ∧ Style.read? s.json = some s) ∧
    (Token.read? ("[\"qr\",7," ++ written "-0" ++ "]").toList = some k ∧ Token.read? k.json = some k) ∧
    Printout.read? ("[[[\"text\",\"a\\n\"," ++ written "1e-45" ++ "]],[\"Paper Cut\"]]").toList = some p ∧
      Printout.read? p.json = some p := by
  intro written s k p
  have hs : Style.read? (written "7.038531e-26").toList = some s := by decide +kernel
  have hk : Token.read? ("[\"qr\",7," ++ written "-0" ++ "]").toList = some k := by decide +kernel
  have hp : Printout.read?
      ("[[[\"text\",\"a\\n\"," ++ written "1e-45" ++ "]],[\"Paper Cut\"]]").toList = some p := by
    decide +kernel
  obtain ⟨style, token, printout⟩ := reread_json
  have hsf : s.IsFinite := by
    rintro x ⟨⟩
    decide
  have hkf : k.style.IsFinite := by
    rintro x ⟨⟩
    decide
  have hpf : p.IsFinite := by
    intro t ht
    obtain rfl := List.mem_singleton.mp ht
    rintro x ⟨⟩
    decide
  exact ⟨⟨hs, (style _ s hs).2.mpr hsf⟩, ⟨hk, (token _ k hk).2.mpr hkf⟩, hp, (printout _ p hp).2.mpr hpf⟩

/-- A number past the largest single is accepted, and the style with it is not read again. -/
theorem reread_json_infinite :
    let t : Text := "[false,\"normal\",\"normal\",\"left\",false,false,false,false,1e39]".toList
    let s : Style := { scale := some ⟨false, 0x7f800000, by decide⟩ }
    Style.read? t = some s ∧ Style.read? s.json = some {} ∧ s ≠ {} := by
  intro t s
  exact ⟨by decide +kernel, s.read?_json, by decide⟩

end ReceiptPrinter
