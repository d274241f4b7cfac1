import ReceiptPrinter.Proofs.Json.Grammar

namespace ReceiptPrinter.Json.Value

open Lexeme

/-- The value has a text: all its strings have characters and all its numbers have digits. -/
inductive IsWritten : Value → Prop where
  | null : IsWritten .null
  | bool (b : Bool) : IsWritten (.bool b)
  | number {l : Literal} (h : l.IsWritten) : IsWritten (.number l)
  | text (t : Text) : IsWritten (.ofText t)
  | array {items : List Value} (h : ∀ v ∈ items, v.IsWritten) : IsWritten (.array items)
  | object {ms : List (Text × Value)} (h : ∀ m ∈ ms, m.2.IsWritten) : IsWritten (.ofMembers ms)

theorem storableMembers_eq (levels : Nat) (ms : List Member) :
    storableMembers levels ms = ms.all fun m => m.1.isSome && m.2.storable levels := by
  induction ms with
  | nil => rfl
  | cons m ms ih => rw [storableMembers, ih, List.all_cons]

theorem storable_ofMembers {levels : Nat} {ms : List (Text × Value)}
    (h : ∀ m ∈ ms, m.2.storable levels = true) : (ofMembers ms).storable (levels + 1) = true := by
  rw [ofMembers, storable, storableMembers_eq, List.all_map, Bool.and_eq_true, List.all_eq_true]
  exact ⟨decide_eq_true (Nat.succ_pos levels), h⟩

theorem compactItems_eq (items : List Value) : compactItems items = items.map compact := by
  induction items with
  | nil => rfl
  | cons v items ih => rw [compactItems, ih, List.map_cons]

theorem compactMembers_eq (ms : List Member) :
    compactMembers ms = ms.map fun (k, v) => quote (k.getD []) ++ ':' :: v.compact := by
  induction ms with
  | nil => rfl
  | cons m ms ih => rw [compactMembers, ih, List.map_cons]

theorem indentedItems_eq (level : Nat) (items : List Value) :
    indentedItems level items = items.map (indented level) := by
  induction items with
  | nil => rfl
  | cons v items ih => rw [indentedItems, ih, List.map_cons]

theorem indentedMembers_eq (level : Nat) (ms : List Member) : indentedMembers level ms =
    ms.map fun (k, v) => quote (k.getD []) ++ ':' :: ' ' :: v.indented level := by
  induction ms with
  | nil => rfl
  | cons m ms ih => rw [indentedMembers, ih, List.map_cons]

theorem isEscape_escape (c : Char) : IsEscape c (escape c) := by
  have hs : ∀ p ∈ shortEscapes, IsEscape p.2 ['\\', p.1] := fun _ hp => .short hp
  have hu : ∀ n < 32, Hex.IsSpelling 4 n
      ['0', '0', Nat.digitChar (n / 16), Nat.digitChar (n % 16)] := by
    unfold Hex.IsSpelling
    decide
  rw [escape]
  split_ifs with hq hb hn hr ht h8 hf hc
  · exact hq ▸ hs ('"', '"') (by decide)
  · exact hb ▸ hs ('\\', '\\') (by decide)
  · exact hn ▸ hs ('n', '\n') (by decide)
  · exact hr ▸ hs ('r', '\r') (by decide)
  · exact ht ▸ hs ('t', '\t') (by decide)
  · exact h8 ▸ hs ('b', '\x08') (by decide)
  · exact hf ▸ hs ('f', '\x0c') (by decide)
  · have hlt : c.toNat < 32 := hc
    exact .unit (by omega) (hu _ hlt)
  · exact .itself hq hb (Char.not_lt.mp hc)

theorem isText_quote (t : Text) : IsText (.ofText t) (quote t) := by
  rw [quote, List.flatMap_def]
  exact .text (List.forall₂_map_right_iff.mpr (List.forall₂_same.mpr fun c _ => isEscape_escape c))

theorem isText_literal {l : Literal} (h : l.IsWritten) : IsText (.number l) l.text := by
  rw [l.text_eq]
  exact .number h (isExponent_exponentPart _)

theorem isGap_nil : IsGap [] := List.nil_subset _

theorem isGap_space : IsGap [' '] := by
  unfold IsGap
  decide

theorem isGap_newLine (level : Nat) : IsGap (newLine level) := by
  intro c hc
  obtain rfl | hc := List.mem_cons.mp hc
  · decide
  · rw [List.eq_of_mem_replicate hc]
    decide

section Layout

variable {f : Value → Text} {g g' before between : Text}

theorem IsText.pad {v : Value} {t : Text} (hg : IsGap g) (h : IsText v t) : IsText v (g ++ t) := by
  have hp := IsText.padded hg isGap_nil h
  rwa [List.append_nil] at hp

theorem isText_items {items : List Value} (hb : IsGap before) (hg' : IsGap g')
    (h : ∀ v ∈ items, IsText v (f v)) :
    IsText (.array items) (Brackets.square.spaced [] (items.map fun v => before ++ f v) g') := by
  have ht := IsText.array (items.map fun v => (v, before ++ f v)) isGap_nil hg'
    (List.forall_mem_map.mpr fun v hv => (h v hv).pad hb)
  rw [List.map_map, List.map_map] at ht
  rwa [show items.map (Prod.fst ∘ fun v => (v, before ++ f v)) = items from List.map_id items] at ht

theorem isText_members {ms : List (Text × Value)} (hb : IsGap before) (hm : IsGap between)
    (hg' : IsGap g') (h : ∀ m ∈ ms, IsText m.2 (f m.2)) :
    IsText (.ofMembers ms) (Brackets.curly.spaced []
      (ms.map fun m => before ++ (quote m.1 ++ ':' :: (between ++ f m.2))) g') := by
  simp only [← List.append_assoc before]
  have ht := IsText.object
    (ms.map fun m => ⟨m.1, m.2, before ++ quote m.1, between ++ f m.2⟩) isGap_nil hg'
    (List.forall_mem_map.mpr fun m _ => (isText_quote m.1).pad hb)
    (List.forall_mem_map.mpr fun m hm' => (h m hm').pad hm)
  rw [List.map_map, List.map_map] at ht
  rwa [show ms.map ((fun e : Entry => (e.key, e.value)) ∘
    fun m => ⟨m.1, m.2, before ++ quote m.1, between ++ f m.2⟩) = ms from List.map_id ms] at ht

end Layout

theorem stacked_eq (b : Brackets) (level : Nat) (parts : List Text) :
    stacked level b.opening b.closing parts = b.spaced []
      (parts.map (newLine (level + 1) ++ ·)) (if parts.isEmpty then [] else newLine level) := by
  rw [stacked, Brackets.spaced]
  split_ifs with h
  · rw [List.isEmpty_iff.mp h]
    rfl
  · rw [List.nil_append, List.append_assoc]

theorem isGap_ite (level : Nat) (b : Bool) : IsGap (if b then [] else newLine level) := by
  cases b with
  | true => exact isGap_nil
  | false => exact isGap_newLine level

namespace IsWritten

variable {v : Value}

theorem isText_compact (h : v.IsWritten) : IsText v v.compact := by
  induction h with
  | null => exact .null
  | bool b => cases b <;> exact .bool _
  | number h => exact isText_literal h
  | text t => exact isText_quote t
  | array _ ih =>
    rw [compact, compactItems_eq]
    exact isText_items isGap_nil isGap_nil ih
  | object _ ih =>
    rw [ofMembers, compact, compactMembers_eq, List.map_map]
    exact isText_members isGap_nil isGap_nil isGap_nil ih

theorem isText_indented (h : v.IsWritten) (level : Nat) : IsText v (v.indented level) := by
  induction h generalizing level with
  | null => exact .null
  | bool b => cases b <;> exact .bool _
  | number h => exact isText_literal h
  | text t => exact isText_quote t
  | @array items _ ih =>
    rw [indented, indentedItems_eq]
    have hs := stacked_eq .square level (items.map (indented (level + 1)))
    rw [List.map_map] at hs
    exact hs ▸ isText_items (isGap_newLine _) (isGap_ite _ _) fun v hv => ih v hv (level + 1)
  | @object ms _ ih =>
    have hs := stacked_eq .curly level
      (ms.map fun m => quote m.1 ++ ':' :: ([' '] ++ m.2.indented (level + 1)))
    rw [List.map_map] at hs
    rw [ofMembers, indented, indentedMembers_eq, List.map_map]
    exact hs ▸ isText_members (isGap_newLine _) isGap_space (isGap_ite _ _) fun m hm => ih m hm (level + 1)

theorem read_compact (h : v.IsWritten) : read v.compact = (v, []) := h.isText_compact.read_eq

theorem read_indented (h : v.IsWritten) (level : Nat) {g : Text} (hg : ∀ c ∈ g, isGap c = true) :
    read (v.indented level ++ g) = (v, []) := by
  have ht := IsText.padded isGap_nil (isGap_iff.mpr hg) (h.isText_indented level)
  exact ht.read_eq

theorem whole?_of_read (h : v.IsWritten) {t : Text} (ht : read t = (v, [])) : whole? t = some v := by
  rw [whole?, ht]
  exact if_pos h.isText_compact.intact

end IsWritten

theorem IsText.isWritten {v : Value} {t : Text} (h : IsText v t) : v.IsWritten := by
  induction h with
  | null => exact .null
  | bool b => exact .bool b
  | number h _ => exact .number h
  | text _ => exact .text _
  | array _ _ _ _ ih => exact .array (List.forall_mem_map.mpr ih)
  | object _ _ _ _ _ _ ihv => exact .object (List.forall_mem_map.mpr ihv)
  | padded _ _ _ ih => exact ih

theorem isWritten_of_mem {ms : List Member} (h : (Value.object ms).IsWritten) {m : Member} (hm : m ∈ ms) :
    m.1.isSome = true ∧ m.2.IsWritten := by
  generalize hv : Value.object ms = v at h
  cases h with
  | @object ns h =>
    obtain rfl := Value.object.inj hv
    obtain ⟨n, hn, rfl⟩ := List.mem_map.mp hm
    exact ⟨rfl, h n hn⟩
  | _ => cases hv

end ReceiptPrinter.Json.Value
