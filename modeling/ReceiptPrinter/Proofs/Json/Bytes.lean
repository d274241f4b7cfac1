import ReceiptPrinter.Proofs.Json.RoundTrip
import ReceiptPrinter.Proofs.Text.Decoding

namespace ReceiptPrinter.Json

namespace Value

theorem ofScalars_append (a b : List (Option Char)) : ofScalars (a ++ b) = ofScalars a ++ ofScalars b :=
  List.flatMap_append

theorem ofScalars_map_some (t : Text) : ofScalars (t.map some) = t := by
  rw [ofScalars, List.flatMap_map]
  exact List.flatMap_singleton' t

theorem ofScalars_encode_append (t : Text) (rest : List UInt8) :
    ofScalars (Utf8.scalars (Utf8.encode t ++ rest)) = t ++ ofScalars (Utf8.scalars rest) := by
  rw [Utf8.scalars_encode_append, ofScalars_append, ofScalars_map_some]

theorem readBytes_encode (t : Text) : readBytes (Utf8.encode t) = read t := by
  rw [readBytes, Utf8.scalars_encode, ofScalars_map_some]

theorem IsText.readBytes_append {v : Value} {t : Text} (h : IsText v t) (hc : v.isClosed = true)
    (rest : List UInt8) : (readBytes (Utf8.encode t ++ rest)).1 = v := by
  rw [readBytes, ofScalars_encode_append, h.read_append hc]

end Value

namespace Lexeme

open Value

theorem joinUnits_gap (acc : Text) (us : List CodeUnit) :
    joinUnits acc (.char 'x' :: .unit 0xd800 :: .char 'x' :: us) = none := by
  rw [joinUnits, joinUnits.eq_def]
  rfl

theorem scanUnits_gap (done : List CodeUnit) (count : Nat) (rest : Text) :
    scanUnits done count (gapText ++ rest) =
      scanUnits (.char 'x' :: .unit 0xd800 :: .char 'x' :: done) (count + gapText.length) rest := by
  rfl

theorem scanUnits_ofScalars {cs : List (Option Char)}
    (h : ∀ c, some c ∈ cs → c ≠ '"' ∧ c ≠ '\\' ∧ ¬ c < ' ') (rest : Text) (done : List CodeUnit) (count : Nat) :
    ∃ us : List CodeUnit, scanUnits done count (ofScalars cs ++ '"' :: rest) =
        some (done.reverse ++ us, count + (ofScalars cs).length + 1) ∧
      ∀ acc, joinUnits acc us = (cs.mapM id).map (acc.reverse ++ ·) := by
  induction cs generalizing done count with
  | nil => exact ⟨[], by rw [List.append_nil]; rfl, fun acc => by simp [joinUnits]⟩
  | cons c cs ih =>
    have hcs := fun d hd => h d (List.mem_cons_of_mem _ hd)
    cases c with
    | none =>
      obtain ⟨us, hus, -⟩ := ih hcs (.char 'x' :: .unit 0xd800 :: .char 'x' :: done) (count + gapText.length)
      refine ⟨.char 'x' :: .unit 0xd800 :: .char 'x' :: us, ?_, fun acc => joinUnits_gap acc us⟩
      have hc : ofScalars (none :: cs) = gapText ++ ofScalars cs := List.flatMap_cons
      rw [hc, List.append_assoc, scanUnits_gap, hus, List.length_append, ← Nat.add_assoc]
      simp
    | some c =>
      obtain ⟨hq, hb, hl⟩ := h c List.mem_cons_self
      obtain ⟨u, hu, hs⟩ := scans_plain hq hb hl
      obtain ⟨us, hus, hj⟩ := ih hcs (u :: done) (count + 1)
      have hc : ofScalars (some c :: cs) = [c] ++ ofScalars cs := List.flatMap_cons
      refine ⟨u :: us, ?_, fun acc => ?_⟩
      · rw [hc, List.append_assoc, hs, List.length_singleton, hus, List.length_append, ← Nat.add_assoc]
        simp
      · rw [hu, hj, List.mapM_cons]
        cases cs.mapM id <;> simp

theorem scanString_ofScalars {cs : List (Option Char)}
    (h : ∀ c, some c ∈ cs → c ≠ '"' ∧ c ≠ '\\' ∧ ¬ c < ' ') (rest : Text) :
    scanString (ofScalars cs ++ '"' :: rest) = some (.string (cs.mapM id), (ofScalars cs).length + 1) := by
  obtain ⟨us, hus, hj⟩ := scanUnits_ofScalars h rest [] 0
  have hv : joinUnits [] us = cs.mapM id := by
    rw [hj]
    cases cs.mapM id <;> rfl
  rw [scanString, hus, ← hv, Nat.zero_add]
  rfl

theorem spells_ofScalars {cs : List (Option Char)}
    (h : ∀ c, some c ∈ cs → c ≠ '"' ∧ c ≠ '\\' ∧ ¬ c < ' ') :
    Spells ('"' :: (ofScalars cs ++ ['"'])) [.string (cs.mapM id)] := by
  apply spells_scanned rfl
  intro rest _
  rw [List.append_assoc, List.length_append]
  exact scanString_ofScalars h rest

end Lexeme

namespace Value

/-- A byte that stands for itself between quotes, or for a part of a character. -/
def IsPlainByte (b : UInt8) : Prop := 0x20 ≤ b.toNat ∧ b.toNat ≠ 0x22 ∧ b.toNat ≠ 0x5c

variable {bytes : List UInt8}

theorem plain_of_mem_scalars (h : ∀ b ∈ bytes, IsPlainByte b) {c : Char} (hc : some c ∈ Utf8.scalars bytes) :
    c ≠ '"' ∧ c ≠ '\\' ∧ ¬ c < ' ' := by
  by_cases ha : c.toNat < 0x80
  · obtain ⟨hl, hq, hb⟩ := h _ (Utf8.mem_of_mem_scalars ha hc)
    rw [UInt8.toNat_ofNat', Nat.mod_eq_of_lt (by omega)] at hl hq hb
    refine ⟨?_, ?_, hl.not_gt⟩
    · rintro rfl
      exact hq rfl
    · rintro rfl
      exact hb rfl
  · refine ⟨?_, ?_, fun hl => ?_⟩
    · rintro rfl
      exact ha (by decide)
    · rintro rfl
      exact ha (by decide)
    · have hs : c.toNat < 0x20 := hl
      omega

theorem ofScalars_quoted (bytes rest : List UInt8) :
    ofScalars (Utf8.scalars (0x22 :: (bytes ++ 0x22 :: rest))) =
      '"' :: (ofScalars (Utf8.scalars bytes) ++ '"' :: ofScalars (Utf8.scalars rest)) := by
  have hq : ∀ x y, Utf8.scalars (x ++ 0x22 :: y) = Utf8.scalars x ++ some '"' :: Utf8.scalars y :=
    Utf8.scan_append_ascii (by decide) fun _ hp => absurd hp (by simp)
  have hb := hq [] (bytes ++ 0x22 :: rest)
  rw [List.nil_append, hq] at hb
  rw [hb]
  exact congrArg ('"' :: ·) (ofScalars_append _ (some '"' :: Utf8.scalars rest))

/-- Between quotes bytes stand for the text that they encode, and for none where they encode none. -/
theorem lexFrom_quoted (h : ∀ b ∈ bytes, IsPlainByte b) {rest : List UInt8}
    (hr : Lexeme.Stops (ofScalars (Utf8.scalars rest))) :
    Lexeme.lexFrom 0 (ofScalars (Utf8.scalars (0x22 :: (bytes ++ 0x22 :: rest)))) =
      .string (Utf8.decode? bytes) :: Lexeme.lexFrom 0 (ofScalars (Utf8.scalars rest)) := by
  have hs := Lexeme.spells_ofScalars (fun _ => plain_of_mem_scalars h) _ hr
  rw [List.cons_append, List.append_assoc] at hs
  rw [ofScalars_quoted]
  exact hs

end Value

end ReceiptPrinter.Json
