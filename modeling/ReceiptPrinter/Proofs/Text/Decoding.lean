import Mathlib.Data.Nat.Find
import ReceiptPrinter.Proofs.Text.Utf8

namespace ReceiptPrinter.Utf8

theorem scan_cons (s : Option Begun) (b : UInt8) (rest : List UInt8) :
    scan s (b :: rest) = (step s b.toNat).1 ++ scan (step s b.toNat).2 rest := rfl

theorem scan_opens {bs : List UInt8} {p : Begun} (h : Opens bs p) (rest : List UInt8) :
    scan none (bs ++ rest) = (settle p).1 ++ scan (settle p).2 rest := by
  induction h generalizing rest with
  | lead h => rw [List.singleton_append, scan, step, fresh, h]
  | @extend bs p q b _ hp hq ih =>
    rw [List.append_assoc, ih, settle, if_neg hp, List.nil_append, List.singleton_append, scan, step, hq]

theorem settle_of_ne_zero {p : Begun} (h : p.missing ≠ 0) : settle p = ([], some p) := if_neg h

theorem scalars_encodeChar_append (c : Char) (rest : List UInt8) :
    scalars (String.utf8EncodeChar c ++ rest) = some c :: scalars rest := by
  have hne : String.utf8EncodeChar c ≠ [] := by simp [utf8EncodeChar_eq]
  obtain ⟨p, hp, hv⟩ := exists_opens_of_prefix hne (List.prefix_refl _)
  have hm : p.missing = 0 := by
    obtain ⟨-, he⟩ := hp.utf8EncodeChar_eq hv
    rw [Char.ofNat_toNat, List.self_eq_append_right] at he
    cases hn : p.missing with
    | zero => rfl
    | succ n =>
      rw [hn] at he
      exact absurd he (by simp [tails])
  have hs : settle p = ([some c], none) := by
    have hd := hv.1
    rw [hm, Nat.pow_zero, Nat.div_one] at hd
    rw [settle, if_pos hm, ← hd, Char.ofNat_toNat]
  rw [scalars, scan_opens hp, hs]
  rfl

/-- The front is the longest one that is the start of a character or a single byte, and no character
comes whole. -/
structure IsBroken (bs rest : List UInt8) : Prop where
  ne_nil : bs ≠ []
  not_prefix : ∀ c, ¬ String.utf8EncodeChar c <+: bs ++ rest
  begins : bs.length = 1 ∨ Begins bs
  longest : ∀ us, us <+: bs ++ rest → Begins us → us.length ≤ bs.length

theorem scan_of_not_extend {p : Begun} {rest : List UInt8} (h : ∀ b ∈ rest.head?, extend p b.toNat = none) :
    scan (some p) rest = none :: scalars rest := by
  cases rest with
  | nil => rfl
  | cons b rest =>
    rw [scan, step, h b rfl]
    rfl

theorem IsBroken.scalars_append {bs rest : List UInt8} (h : IsBroken bs rest) :
    scalars (bs ++ rest) = none :: scalars rest := by
  by_cases hb : Begins bs
  · obtain ⟨p, hp⟩ := (begins_iff h.ne_nil).mp hb
    have hm : p.missing ≠ 0 := by
      intro hm
      obtain ⟨v, hv⟩ := exists_holds hp.bounded
      obtain ⟨-, he⟩ := hp.utf8EncodeChar_eq hv
      rw [hm, tails, List.append_nil] at he
      exact h.not_prefix (.ofNat v) (he ▸ List.prefix_append bs rest)
    rw [scalars, scan_opens hp, settle_of_ne_zero hm, List.nil_append]
    apply scan_of_not_extend
    intro b hbr
    obtain ⟨rest, rfl⟩ := List.head?_eq_some_iff.mp hbr
    cases hq : extend p b.toNat with
    | none => rfl
    | some q =>
      have hl := h.longest (bs ++ [b]) ⟨rest, by simp⟩ (hp.extend hm hq).begins
      rw [List.length_append] at hl
      exact absurd hl (Nat.not_succ_le_self _)
  · obtain ⟨b, rfl⟩ := List.length_eq_one_iff.mp (h.begins.resolve_right hb)
    have hn : lead b.toNat = none := by
      rw [Option.eq_none_iff_forall_ne_some]
      exact fun p hp => hb (Opens.lead hp).begins
    rw [scalars, List.singleton_append, scan, step, fresh, hn]
    rfl

/-- The bytes of characters are read, and each longest broken stretch between them leaves a gap. -/
inductive Decodes : List UInt8 → List (Option Char) → Prop where
  | nil : Decodes [] []
  | char (c : Char) {rest : List UInt8} {cs : List (Option Char)} (h : Decodes rest cs) :
    Decodes (String.utf8EncodeChar c ++ rest) (some c :: cs)
  | gap {bs rest : List UInt8} {cs : List (Option Char)} (hb : IsBroken bs rest) (h : Decodes rest cs) :
    Decodes (bs ++ rest) (none :: cs)

theorem exists_isBroken {bytes : List UInt8} (hne : bytes ≠ [])
    (h : ∀ c, ¬ String.utf8EncodeChar c <+: bytes) : ∃ bs rest, bytes = bs ++ rest ∧ IsBroken bs rest := by
  classical
  let longest := Nat.findGreatest (fun n => Begins (bytes.take n)) bytes.length
  have hl : longest ≤ bytes.length := Nat.findGreatest_le _
  have hp : 0 < bytes.length := List.length_pos_iff.mpr hne
  have hb : Begins (bytes.take longest) :=
    Nat.findGreatest_spec (P := fun n => Begins (bytes.take n)) (Nat.zero_le _) ⟨'a', List.nil_prefix⟩
  have hk : (bytes.take (max 1 longest)).length = max 1 longest := by
    rw [List.length_take]
    omega
  refine ⟨bytes.take (max 1 longest), bytes.drop (max 1 longest), (List.take_append_drop _ _).symm, ?_⟩
  refine ⟨fun hn => ?_, ?_, ?_, fun us hu hbu => ?_⟩
  · rw [hn] at hk
    simp at hk
    omega
  · rwa [List.take_append_drop]
  · by_cases h1 : longest ≤ 1
    · left
      omega
    · rw [max_eq_right (by omega)]
      exact Or.inr hb
  · rw [List.take_append_drop] at hu
    rw [List.prefix_iff_eq_take.mp hu] at hbu
    have hg := Nat.le_findGreatest (P := fun n => Begins (bytes.take n)) hu.length_le hbu
    omega

theorem decodes_iff {bytes : List UInt8} {cs : List (Option Char)} :
    Decodes bytes cs ↔ scalars bytes = cs := by
  constructor
  · intro h
    induction h with
    | nil => rfl
    | char c _ ih => rw [scalars_encodeChar_append, ih]
    | gap hb _ ih => rw [hb.scalars_append, ih]
  · rintro rfl
    induction hn : bytes.length using Nat.strongRecOn generalizing bytes with
    | _ n ih =>
      by_cases hne : bytes = []
      · subst hne
        exact .nil
      · by_cases hc : ∃ c, String.utf8EncodeChar c <+: bytes
        · obtain ⟨c, rest, rfl⟩ := hc
          rw [scalars_encodeChar_append]
          refine .char c (ih rest.length ?_ rfl)
          rw [← hn, utf8EncodeChar_eq, List.length_append, List.length_cons]
          omega
        · obtain ⟨bs, rest, rfl, hb⟩ := exists_isBroken hne (not_exists.mp hc)
          rw [hb.scalars_append]
          refine .gap hb (ih rest.length ?_ rfl)
          have := List.length_pos_iff.mpr hb.ne_nil
          rw [← hn, List.length_append]
          omega

theorem scalars_encode_append (t : Text) (rest : List UInt8) :
    scalars (encode t ++ rest) = t.map some ++ scalars rest := by
  induction t with
  | nil => rfl
  | cons c t ih =>
    have he : encode (c :: t) = String.utf8EncodeChar c ++ encode t := List.flatMap_cons
    rw [he, List.append_assoc, scalars_encodeChar_append, ih, List.map_cons]
    rfl

theorem scalars_encode (t : Text) : scalars (encode t) = t.map some := by
  have h := scalars_encode_append t []
  rwa [List.append_nil, show scalars [] = [] from rfl, List.append_nil] at h

theorem decode?_encode (t : Text) : decode? (encode t) = some t := by
  rw [decode?, scalars_encode]
  induction t with
  | nil => rfl
  | cons c t ih =>
    rw [List.map_cons, List.mapM_cons, ih]
    rfl

theorem decodeLossy_encode (t : Text) : decodeLossy (encode t) = t := by
  rw [decodeLossy, scalars_encode, List.map_map]
  exact List.map_id t

theorem bounded_of_settle {p q : Begun} (hp : p.Bounded) (h : (settle p).2 = some q) : q.Bounded := by
  unfold settle at h
  split at h
  · cases h
  · exact Option.some.inj h ▸ hp

theorem bounded_of_fresh {b : Nat} {q : Begun} (h : (fresh b).2 = some q) : q.Bounded := by
  unfold fresh at h
  split at h
  · next p hp => exact bounded_of_settle (bounded_lead hp) h
  · cases h

theorem bounded_of_step {s : Option Begun} {b : Nat} {q : Begun} (h : (step s b).2 = some q) :
    q.Bounded := by
  unfold step at h
  split at h
  · exact bounded_of_fresh h
  · split at h
    · next r hr => exact bounded_of_settle (bounded_extend hr) h
    · exact bounded_of_fresh h

section Ascii

variable {b : UInt8} (hb : b.toNat < 0x80)

include hb

theorem fresh_of_ascii : fresh b.toNat = ([some (.ofNat b.toNat)], none) := by
  rw [fresh, lead, if_pos hb]
  rfl

theorem step_of_ascii {s : Option Begun} (hs : ∀ p ∈ s, p.Bounded) :
    step s b.toNat = (scan s [] ++ [some (.ofNat b.toNat)], none) := by
  cases s with
  | none => exact fresh_of_ascii hb
  | some p =>
    have hl := (hs p rfl).le_low
    have he : extend p b.toNat = none := if_neg (by omega)
    simp only [step, he, fresh_of_ascii hb]
    rfl

/-- A byte of one character alone ends what is open and stands for itself. -/
theorem scan_append_ascii {s : Option Begun} (hs : ∀ p ∈ s, p.Bounded) (x y : List UInt8) :
    scan s (x ++ b :: y) = scan s x ++ some (.ofNat b.toNat) :: scalars y := by
  induction x generalizing s with
  | nil =>
    rw [List.nil_append, scan_cons, step_of_ascii hb hs, List.append_assoc]
    rfl
  | cons a x ih =>
    rw [List.cons_append, scan_cons, ih fun p hp => bounded_of_step hp, scan_cons, List.append_assoc]

theorem decodeLossy_append_ascii (x y : List UInt8) :
    decodeLossy (x ++ b :: y) = decodeLossy x ++ .ofNat b.toNat :: decodeLossy y := by
  rw [decodeLossy, scalars, scan_append_ascii hb (fun _ hp => absurd hp (by simp)), List.map_append]
  rfl

end Ascii

theorem subset_of_mem_scalars {bytes : List UInt8} {c : Char} (h : some c ∈ scalars bytes) :
    String.utf8EncodeChar c ⊆ bytes := by
  generalize hcs : scalars bytes = cs at h
  rw [← decodes_iff] at hcs
  induction hcs with
  | nil => exact nomatch h
  | char d _ ih =>
    obtain hd | h := List.mem_cons.mp h
    · rw [Option.some.inj hd]
      exact List.subset_append_left _ _
    · exact List.subset_append_of_subset_right _ (ih h)
  | gap _ _ ih =>
    obtain hd | h := List.mem_cons.mp h
    · cases hd
    · exact List.subset_append_of_subset_right _ (ih h)

theorem mem_of_mem_scalars {bytes : List UInt8} {c : Char} (hc : c.toNat < 0x80)
    (h : some c ∈ scalars bytes) : .ofNat c.toNat ∈ bytes := by
  have hw : width c.toNat = 0 := if_pos hc
  have he : String.utf8EncodeChar c = [.ofNat c.toNat] := by
    rw [utf8EncodeChar_eq, hw, first, hw, mark, Nat.zero_add, Nat.pow_zero, Nat.div_one]
    rfl
  exact subset_of_mem_scalars h (he ▸ List.mem_singleton.mpr rfl)

def newline : UInt8 := 0x0a

theorem decodeLossy_append_newline (x y : List UInt8) :
    decodeLossy (x ++ newline :: y) = decodeLossy x ++ '\n' :: decodeLossy y :=
  decodeLossy_append_ascii (by decide) x y

theorem newline_not_mem_decodeLossy {bytes : List UInt8} (h : newline ∉ bytes) :
    '\n' ∉ decodeLossy bytes := by
  intro hn
  obtain ⟨c, hc, he⟩ := List.mem_map.mp hn
  cases c with
  | none => exact absurd he (by decide)
  | some c =>
    obtain rfl : c = '\n' := he
    exact h (mem_of_mem_scalars (by decide) hc)

end ReceiptPrinter.Utf8
