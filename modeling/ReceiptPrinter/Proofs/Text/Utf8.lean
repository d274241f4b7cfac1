import Mathlib.Algebra.Order.Ring.Nat
import Mathlib.Data.List.Induction
import ReceiptPrinter.Text.Utf8

namespace ReceiptPrinter.Utf8

/-- How many bytes of a number stand behind the first one. -/
def width (v : Nat) : Nat := if v < 0x80 then 0 else if v < 0x800 then 1 else if v < 0x10000 then 2 else 3

def mark : Nat → Nat
  | 0 => 0
  | 1 => 0xc0
  | 2 => 0xe0
  | _ => 0xf0

def first (v : Nat) : Nat := mark (width v) + v / 64 ^ width v

def tails (v : Nat) : Nat → List UInt8
  | 0 => []
  | n + 1 => .ofNat (0x80 + v / 64 ^ n % 64) :: tails v n

theorem width_cases (v : Nat) : v < 0x80 ∧ width v = 0 ∨ 0x80 ≤ v ∧ v < 0x800 ∧ width v = 1 ∨
    0x800 ≤ v ∧ v < 0x10000 ∧ width v = 2 ∨ 0x10000 ≤ v ∧ width v = 3 := by
  unfold width
  split_ifs <;> omega

theorem utf8EncodeChar_eq (c : Char) :
    String.utf8EncodeChar c = .ofNat (first c.toNat) :: tails c.toNat (width c.toNat) := by
  have hc : c.toNat.isValidChar := c.valid
  have hv : c.val.toNat = c.toNat := rfl
  rw [String.utf8EncodeChar, hv]
  generalize c.toNat = v at *
  unfold Nat.isValidChar at hc
  obtain ⟨h, hw⟩ | ⟨hl, h, hw⟩ | ⟨hl, h, hw⟩ | ⟨h, hw⟩ := width_cases v
  · have h1 : v ≤ 127 := by omega
    simp [first, hw, tails, mark, h1]
  · have h1 : ¬ v ≤ 127 := by omega
    have h2 : v ≤ 2047 := by omega
    have h3 : v / 64 % 32 = v / 64 := by omega
    simp [first, hw, tails, mark, h1, h2, h3, Nat.add_comm]
  · have h1 : ¬ v ≤ 127 := by omega
    have h2 : ¬ v ≤ 2047 := by omega
    have h3 : v ≤ 65535 := by omega
    have h4 : v / 4096 % 16 = v / 4096 := by omega
    simp [first, hw, tails, mark, h1, h2, h3, h4, Nat.add_comm]
  · have h1 : ¬ v ≤ 127 := by omega
    have h2 : ¬ v ≤ 2047 := by omega
    have h3 : ¬ v ≤ 65535 := by omega
    have h4 : v / 262144 % 8 = v / 262144 := by omega
    simp [first, hw, tails, mark, h1, h2, h3, h4, Nat.add_comm]

namespace Begun

/-- The open character may become the one of that number. -/
def Holds (p : Begun) (v : Nat) : Prop := v / 64 ^ p.missing = p.value ∧ (p.missing ≠ 0 →
  p.low ≤ 0x80 + v / 64 ^ (p.missing - 1) % 64 ∧ 0x80 + v / 64 ^ (p.missing - 1) % 64 ≤ p.high)

structure Bounded (p : Begun) : Prop where
  le_low : 0x80 ≤ p.low
  low_le : p.low ≤ p.high
  high_le : p.high ≤ 0xbf

end Begun

theorem bounded_lead {b : Nat} {p : Begun} (h : lead b = some p) : p.Bounded := by
  unfold lead at h
  split_ifs at h <;> obtain rfl := Option.some.inj h <;> constructor <;> simp

theorem holds_lead_iff {b v : Nat} {p : Begun} (h : lead b = some p) : p.Holds v ↔
    v.isValidChar ∧ width v = p.missing ∧ mark p.missing + v / 64 ^ p.missing = b := by
  have hw := width_cases v
  unfold lead at h
  unfold Begun.Holds Nat.isValidChar
  split_ifs at h <;> obtain rfl := Option.some.inj h <;> simp [mark] <;> omega

theorem first_cases {v : Nat} (h : v.isValidChar) : first v < 0x80 ∧ width v = 0 ∨
    0xc2 ≤ first v ∧ first v < 0xe0 ∧ width v = 1 ∨ 0xe0 ≤ first v ∧ first v < 0xf0 ∧ width v = 2 ∨
    0xf0 ≤ first v ∧ first v < 0xf5 ∧ width v = 3 := by
  unfold Nat.isValidChar at h
  unfold first
  obtain ⟨_, hw⟩ | ⟨_, _, hw⟩ | ⟨_, _, hw⟩ | ⟨_, hw⟩ := width_cases v <;> rw [hw] <;> simp [mark] <;> omega

theorem missing_lead {b : Nat} {p : Begun} (h : lead b = some p) : b < 0x80 ∧ p.missing = 0 ∨
    0x80 ≤ b ∧ b < 0xe0 ∧ p.missing = 1 ∨ 0xe0 ≤ b ∧ b < 0xf0 ∧ p.missing = 2 ∨
    0xf0 ≤ b ∧ p.missing = 3 := by
  unfold lead at h
  split_ifs at h <;> obtain rfl := Option.some.inj h <;> simp <;> omega

theorem isSome_lead {b : Nat} (h : b < 0x80 ∨ 0xc2 ≤ b ∧ b < 0xf5) : (lead b).isSome = true := by
  unfold lead
  split_ifs <;> first | rfl | omega

theorem exists_lead {v : Nat} (h : v.isValidChar) : ∃ p, lead (first v) = some p ∧ p.missing = width v := by
  have hf := first_cases h
  obtain ⟨p, hp⟩ := Option.isSome_iff_exists.mp (isSome_lead (b := first v) (by omega))
  have hm := missing_lead hp
  exact ⟨p, hp, by omega⟩

theorem toNat_ofNat {v : Nat} (h : v.isValidChar) : (Char.ofNat v).toNat = v := by
  rw [Char.ofNat, dif_pos h]
  rfl

theorem extend_eq_some_iff {p q : Begun} {b : Nat} : extend p b = some q ↔
    (p.low ≤ b ∧ b ≤ p.high) ∧ q = { value := p.value * 64 + (b - 0x80), missing := p.missing - 1 } := by
  unfold extend
  split
  · next h => simp [h, eq_comm]
  · next h => simp [h]

theorem bounded_extend {p q : Begun} {b : Nat} (h : extend p b = some q) : q.Bounded := by
  obtain ⟨-, rfl⟩ := extend_eq_some_iff.mp h
  exact ⟨by simp, by simp, by simp⟩

section Extend

variable {p q : Begun} {v b n : Nat}

theorem holds_extend_iff (hp : p.Bounded) (hn : p.missing = n + 1) (h : extend p b = some q) :
    q.Holds v ↔ p.Holds v ∧ b = 0x80 + v / 64 ^ n % 64 := by
  obtain ⟨hb, rfl⟩ := extend_eq_some_iff.mp h
  obtain ⟨hl, -, hh⟩ := hp
  have hd : v / 64 ^ (n + 1) = v / 64 ^ n / 64 := by rw [Nat.pow_succ, Nat.div_div_eq_div_mul]
  have hm : v / 64 ^ (n - 1) % 64 < 64 := Nat.mod_lt _ (by decide)
  simp only [Begun.Holds, hn, Nat.add_sub_cancel, hd]
  omega

theorem exists_extend (hn : p.missing = n + 1) (h : p.Holds v) :
    ∃ q, extend p (0x80 + v / 64 ^ n % 64) = some q := by
  refine ⟨_, extend_eq_some_iff.mpr ⟨?_, rfl⟩⟩
  have hb := h.2 (by omega)
  rw [hn, Nat.add_sub_cancel] at hb
  exact hb

theorem exists_holds (hp : p.Bounded) : ∃ v, p.Holds v := by
  obtain ⟨hl, hlh, hh⟩ := hp
  cases hm : p.missing with
  | zero => exact ⟨p.value, by simp [Begun.Holds, hm]⟩
  | succ n =>
    -- The lowest byte that may come next, and anything behind it.
    have hd : (p.value * 64 + (p.low - 0x80)) * 64 ^ n / 64 ^ n = p.value * 64 + (p.low - 0x80) :=
      Nat.mul_div_cancel _ (Nat.pow_pos (by decide))
    refine ⟨(p.value * 64 + (p.low - 0x80)) * 64 ^ n, ?_⟩
    rw [Begun.Holds, hm, Nat.add_sub_cancel, Nat.pow_succ, ← Nat.div_div_eq_div_mul, hd]
    omega

end Extend

/-- The bytes leave a character open. -/
inductive Opens : List UInt8 → Begun → Prop where
  | lead {b : UInt8} {p : Begun} (h : lead b.toNat = some p) : Opens [b] p
  | extend {bs : List UInt8} {p q : Begun} {b : UInt8} (h : Opens bs p) (hp : p.missing ≠ 0)
    (hq : extend p b.toNat = some q) : Opens (bs ++ [b]) q

namespace Opens

variable {bs : List UInt8} {p : Begun}

theorem bounded (h : Opens bs p) : p.Bounded := by
  cases h with
  | lead h => exact bounded_lead h
  | extend _ _ hq => exact bounded_extend hq

theorem utf8EncodeChar_eq (h : Opens bs p) {v : Nat} (hv : p.Holds v) :
    v.isValidChar ∧ String.utf8EncodeChar (.ofNat v) = bs ++ tails v p.missing := by
  induction h generalizing v with
  | @lead b p h =>
    obtain ⟨hc, hw, hf⟩ := (holds_lead_iff h).mp hv
    refine ⟨hc, ?_⟩
    rw [Utf8.utf8EncodeChar_eq, toNat_ofNat hc, first, hw, hf, UInt8.ofNat_toNat]
    rfl
  | @extend bs p q b h hp hq ih =>
    obtain ⟨n, hn⟩ := Nat.exists_eq_succ_of_ne_zero hp
    obtain ⟨hpv, hb⟩ := (holds_extend_iff h.bounded hn hq).mp hv
    obtain ⟨hc, he⟩ := ih hpv
    obtain ⟨-, rfl⟩ := extend_eq_some_iff.mp hq
    refine ⟨hc, ?_⟩
    rw [he, hn, Nat.succ_eq_add_one, tails, ← hb, UInt8.ofNat_toNat, List.append_assoc]
    rfl

end Opens

def Begins (bs : List UInt8) : Prop := ∃ c, bs <+: String.utf8EncodeChar c

theorem Opens.begins {bs : List UInt8} {p : Begun} (h : Opens bs p) : Begins bs := by
  obtain ⟨v, hv⟩ := exists_holds h.bounded
  exact ⟨.ofNat v, _, (h.utf8EncodeChar_eq hv).2.symm⟩

theorem toNat_first {v : Nat} (h : v.isValidChar) : (UInt8.ofNat (first v)).toNat = first v := by
  have hf := first_cases h
  rw [UInt8.toNat_ofNat', Nat.mod_eq_of_lt (by omega)]

theorem exists_opens_of_prefix {bs : List UInt8} {c : Char} (hne : bs ≠ [])
    (h : bs <+: String.utf8EncodeChar c) : ∃ p, Opens bs p ∧ p.Holds c.toNat := by
  induction bs using List.reverseRecOn with
  | nil => exact absurd rfl hne
  | append_singleton us b ih =>
    by_cases hu : us = []
    · subst hu
      rw [utf8EncodeChar_eq, List.nil_append, List.cons_prefix_cons] at h
      have hb : b.toNat = first c.toNat := by rw [h.1, toNat_first (v := c.toNat) c.valid]
      obtain ⟨p, hp, hm⟩ := exists_lead (v := c.toNat) c.valid
      have hv : p.Holds c.toNat := (holds_lead_iff hp).mpr ⟨c.valid, hm.symm, by rw [hm]; rfl⟩
      rw [← hb] at hp
      exact ⟨p, .lead hp, hv⟩
    · obtain ⟨p, hp, hv⟩ := ih hu ((List.prefix_append us [b]).trans h)
      obtain ⟨-, he⟩ := hp.utf8EncodeChar_eq hv
      rw [Char.ofNat_toNat] at he
      rw [he, List.prefix_append_right_inj] at h
      cases hn : p.missing with
      | zero =>
        rw [hn] at h
        exact absurd h (by simp [tails])
      | succ n =>
        rw [hn, tails, List.cons_prefix_cons] at h
        have hb : b.toNat = 0x80 + c.toNat / 64 ^ n % 64 := by
          rw [h.1, UInt8.toNat_ofNat', Nat.mod_eq_of_lt (by omega)]
        obtain ⟨q, hq⟩ := exists_extend hn hv
        rw [← hb] at hq
        exact ⟨q, .extend hp (by omega) hq, (holds_extend_iff hp.bounded hn hq).mpr ⟨hv, hb⟩⟩

theorem begins_iff {bs : List UInt8} (hne : bs ≠ []) : Begins bs ↔ ∃ p, Opens bs p := by
  refine ⟨fun ⟨c, h⟩ => ?_, fun ⟨p, h⟩ => h.begins⟩
  obtain ⟨p, hp, -⟩ := exists_opens_of_prefix hne h
  exact ⟨p, hp⟩

end ReceiptPrinter.Utf8
