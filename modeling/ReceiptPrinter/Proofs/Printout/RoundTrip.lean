import ReceiptPrinter.CommandLine.Basic
import ReceiptPrinter.Proofs.Script.Run
import ReceiptPrinter.Proofs.Style.RoundTrip
import ReceiptPrinter.Proofs.Style.Scale

namespace ReceiptPrinter

open Json

theorem mapM_map_eq {α β γ : Type} {f : α → β} {g : β → Option γ} {k : α → γ} {l : List α}
    (h : ∀ a ∈ l, g (f a) = some (k a)) : (l.map f).mapM g = some (l.map k) := by
  induction l with
  | nil => rfl
  | cons a l ih =>
    have hl := ih fun b hb => h b (List.mem_cons_of_mem a hb)
    rw [List.map_cons, List.mapM_cons, h a List.mem_cons_self, hl]
    rfl

theorem mapM_map_of_forall {α β : Type} {f : α → β} {g : β → Option α} {l : List α}
    (h : ∀ a ∈ l, g (f a) = some a) : (l.map f).mapM g = some l := by
  have hm := mapM_map_eq (k := id) h
  rwa [List.map_id] at hm

theorem Notice.name?_toValue (n : Notice) : n.toValue.name? Value.isNull Notice.named = some n :=
  Value.name?_ofText Value.isNull (by cases n <;> decide)

namespace Token

variable {t : Token}

def settled : Token → Token
  | .text c s => .text c s.settled
  | .qr n s => .qr n s.settled

theorem settled_eq_self_iff : t.settled = t ↔ t.style.IsFinite := by
  rw [← Style.settled_eq_self_iff]
  cases t <;> simp [settled, style]

theorem isWritten_members (t : Token) : ∀ m ∈ t.members, m.2.IsWritten := by
  cases t with
  | text c s =>
    simp only [members, List.forall_mem_cons]
    exact ⟨.text _, .text _, s.isWritten_toValue, by simp⟩
  | qr n s =>
    simp only [members, List.forall_mem_cons]
    exact ⟨.text _, .number Literal.isWritten_ofNat, s.isWritten_toValue, by simp⟩

theorem isWritten_toValue (t : Token) : t.toValue.IsWritten :=
  .object t.isWritten_members

theorem toNat_le_wordLimit (n : UInt32) : n.toNat ≤ Literal.wordLimit :=
  n.toNat_lt.le.trans (by decide)

theorem storable_members (t : Token) (levels : Nat) :
    ∀ m ∈ t.members, m.2.storable (levels + 1) = true := by
  cases t with
  | text c s =>
    simp only [members, List.forall_mem_cons]
    exact ⟨rfl, rfl, s.storable_toValue levels, by simp⟩
  | qr n s =>
    have hn : (Value.ofNat n.toNat).storable (levels + 1) = true := by
      rw [Value.ofNat, Value.storable, Literal.isWord_ofNat (toNat_le_wordLimit n), Bool.true_or]
    simp only [members, List.forall_mem_cons]
    exact ⟨rfl, hn, s.storable_toValue levels, by simp⟩

theorem storable_toValue (t : Token) (levels : Nat) : t.toValue.storable (levels + 2) = true :=
  Value.storable_ofMembers (t.storable_members levels)

theorem size?_ofNat (n : UInt32) : size? (.ofNat n.toNat) = some n := by
  have hn := toNat_le_wordLimit n
  have hc : (true && !(Literal.ofNat n.toNat).negative && decide (n.toNat < UInt32.size)) = true :=
    decide_eq_true n.toNat_lt
  rw [Value.ofNat, size?, Literal.isWord_ofNat hn, Literal.scaled_ofNat hn, if_pos hc,
    UInt32.ofNat_toNat]

theorem ofParts?_text (c : Text) (s : Style) :
    ofParts? (.ofText textKind) (.ofText c) s.toValue = some (.text c s.settled) := by
  rw [ofParts?, Style.ofValue?_toValue Value.isVoid s]
  rfl

theorem ofParts?_qr (n : UInt32) (s : Style) :
    ofParts? (.ofText qrKind) (.ofNat n.toNat) s.toValue = some (.qr n s.settled) := by
  have hk : qrKind ≠ textKind := by decide
  have ht : (Value.ofText qrKind).text? = some qrKind := rfl
  rw [ofParts?, Style.ofValue?_toValue Value.isVoid s, ht, size?_ofNat]
  dsimp only [bind, Option.bind]
  rw [if_neg hk, if_pos rfl]
  rfl

theorem ofValue?_toValue (t : Token) : ofValue? t.toValue = some t.settled := by
  cases t with
  | text c s => exact ofParts?_text c s
  | qr n s => exact ofParts?_qr n s

end Token

namespace Printout

def read? (t : Text) : Option Printout := (Value.whole? t).bind ofValue?

variable {p : Printout}

theorem isWritten_toValue (p : Printout) : p.toValue.IsWritten := by
  apply Value.IsWritten.object
  simp only [List.forall_mem_cons]
  refine ⟨.array ?_, .array ?_, by simp⟩
  · rw [List.forall_mem_map]
    exact fun t _ => t.isWritten_toValue
  · rw [List.forall_mem_map]
    exact fun n _ => .text n.message

theorem tokens?_map {f : Token → Value} (hs : ∀ t, (f t).storable (depthLimit - 2) = true)
    (hv : ∀ t, Token.ofValue? (f t) = some t.settled) (ts : List Token) :
    tokens? (.array (ts.map f)) = some (ts.map Token.settled) := by
  apply mapM_map_eq
  intro t _
  rw [if_pos (hs t), hv t]

theorem log?_map (log : List Notice) : log? (.array (log.map Notice.toValue)) = some log :=
  mapM_map_of_forall fun n _ => n.name?_toValue

def settled (p : Printout) : Printout := { p with tokens := p.tokens.map Token.settled }

def IsFinite (p : Printout) : Prop := ∀ t ∈ p.tokens, t.style.IsFinite

theorem settled_eq_self_iff : p.settled = p ↔ p.IsFinite := by
  have hp : p.settled = p ↔ p.tokens.map Token.settled = p.tokens :=
    ⟨fun h => congrArg Printout.tokens h, fun h => by rw [settled, h]⟩
  have ht : p.tokens.map Token.settled = p.tokens ↔ ∀ t ∈ p.tokens, t.settled = t := by
    conv_lhs => rw [← List.map_id p.tokens, List.map_map]
    exact List.map_inj_left
  rw [hp, ht]
  exact forall₂_congr fun t _ => Token.settled_eq_self_iff

theorem ofValue?_toValue (p : Printout) : ofValue? p.toValue = some p.settled := by
  have ht : tokens? (.array (p.tokens.map Token.toValue)) = some (p.tokens.map Token.settled) :=
    tokens?_map (fun t => t.storable_toValue 123) Token.ofValue?_toValue p.tokens
  have hp : ofValue? p.toValue = do
      return ⟨← tokens? (.array (p.tokens.map Token.toValue)),
        ← log? (.array (p.log.map Notice.toValue))⟩ := rfl
  rw [hp, ht, log?_map]
  rfl

theorem read?_of_read {v : Value} (hv : v.IsWritten) {t : Text} (ht : Value.read t = (v, [])) :
    read? t = ofValue? v := by
  rw [read?, hv.whole?_of_read ht, Option.bind_some]

theorem read?_of_read_toValue (h : p.IsFinite) {t : Text} (ht : Value.read t = (p.toValue, [])) :
    read? t = some p := by
  rw [read?_of_read p.isWritten_toValue ht, ofValue?_toValue, settled_eq_self_iff.mpr h]

theorem read?_json (h : p.IsFinite) : read? p.json = some p :=
  read?_of_read_toValue h p.isWritten_toValue.read_compact

theorem read?_indented (h : p.IsFinite) {g : Text} (hg : ∀ c ∈ g, Lexeme.isGap c = true) :
    read? (p.toValue.indented 0 ++ g) = some p :=
  read?_of_read_toValue h (p.isWritten_toValue.read_indented 0 hg)

end Printout

namespace Style

/-- A scale, if there is one, is that of a size command. -/
def IsSized (s : Style) : Prop := ∀ x ∈ s.scale, ∃ n, x = scaleOf n

theorem isSized_default : IsSized {} := fun _ h => nomatch h

theorem IsSized.perform {s : Style} (h : s.IsSized) (c : Command) : (c.perform s).style.IsSized := by
  cases c with
  | reset => exact isSized_default
  | printMode mode => exact fun _ h => nomatch h
  | charSize n =>
    intro x hx
    exact ⟨n, (Option.some.inj hx).symm⟩
  | _ => exact h

theorem IsSized.isFinite {s : Style} (h : s.IsSized) : s.IsFinite := by
  intro x hx
  obtain ⟨n, rfl⟩ := h x hx
  exact isFinite_scaleOf n

end Style

namespace Script

theorem isSized_of_mem_tokens {script : Text} {t : Token} (h : t ∈ (print script).tokens) :
    t.style.IsSized := by
  obtain ⟨o, ho, hot⟩ := List.mem_filterMap.mp h
  exact (Command.forall_run (fun _ c h => h.perform c) Style.isSized_default _ o ho).2 t hot

theorem isFinite_print (script : Text) : (print script).IsFinite := fun _ ht =>
  (isSized_of_mem_tokens ht).isFinite

/-- What a script prints is read back from its compact text and from the text that the command line
writes, every token and notice of it. -/
theorem read?_print (script : Text) (paper : Paper) :
    Printout.read? (print script).json = some (print script) ∧
      Printout.read? ((print script).toValue.indented 0) = some (print script) ∧
      Printout.read? (CommandLine.Format.json.write paper (print script)) = some (print script) := by
  have h := isFinite_print script
  refine ⟨Printout.read?_json h, ?_, ?_⟩
  · have hi := Printout.read?_indented h (g := []) fun _ hc => nomatch hc
    rwa [List.append_nil] at hi
  · exact Printout.read?_indented h (List.forall_mem_singleton.mpr rfl)

end Script

end ReceiptPrinter
