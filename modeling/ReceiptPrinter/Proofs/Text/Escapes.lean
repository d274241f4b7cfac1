import Mathlib.Data.List.Forall2
import Mathlib.Tactic.Ring
import ReceiptPrinter.Proofs.Text.Decoding
import ReceiptPrinter.Text.Percent

namespace ReceiptPrinter

namespace Hex

def digit (n : Nat) : Text := [Nat.digitChar n, (Nat.digitChar n).toUpper]

def digits : Nat → Nat → List Text
  | 0, _ => []
  | w + 1, n => digit (n / 16 ^ w % 16) :: digits w n

def IsSpelling (w n : Nat) (t : Text) : Prop := List.Forall₂ (· ∈ ·) t (digits w n)

theorem value?_of_mem_digit {n : Nat} (hn : n < 16) : ∀ c ∈ digit n, value? c = some n := by
  have h : ∀ n < 16, value? (Nat.digitChar n) = some n ∧ value? (Nat.digitChar n).toUpper = some n := by
    decide
  exact List.forall_mem_cons.mpr ⟨(h n hn).1, List.forall_mem_singleton.mpr (h n hn).2⟩

theorem foldl_of_isSpelling {w n : Nat} {t : Text} (h : IsSpelling w n t) (a : Nat) :
    t.foldl (fun n c => n.bind fun n => (value? c).map (16 * n + ·)) (some a) =
      some (a * 16 ^ w + n % 16 ^ w) := by
  induction w generalizing t a with
  | zero =>
    obtain rfl : t = [] := List.forall₂_nil_right_iff.mp h
    simp [Nat.mod_one]
  | succ w ih =>
    obtain ⟨c, t, hc, ht, rfl⟩ := List.forall₂_cons_right_iff.mp h
    have hv := value?_of_mem_digit (Nat.mod_lt _ (by decide)) c hc
    rw [List.foldl_cons, Option.bind_some, hv, Option.map_some, ih ht, Nat.mod_pow_succ]
    congr 1
    ring

theorem number?_of_isSpelling {w n : Nat} {t : Text} (h : IsSpelling w n t) (hn : n < 16 ^ w) :
    number? t = some n := by
  rw [number?, foldl_of_isSpelling h, Nat.mod_eq_of_lt hn, Nat.zero_mul, Nat.zero_add]

theorem mem_digits {w n : Nat} {l : Text} (h : l ∈ digits w n) : ∃ m < 16, l = digit m := by
  induction w with
  | zero => cases h
  | succ w ih =>
    obtain rfl | h := List.mem_cons.mp h
    · exact ⟨_, Nat.mod_lt _ (by decide), rfl⟩
    · exact ih h

end Hex

theorem Text.exists_mem_of_forall₂ {t : Text} {ls : List Text} (h : List.Forall₂ (· ∈ ·) t ls) {c : Char}
    (hc : c ∈ t) : ∃ l ∈ ls, c ∈ l := by
  induction h with
  | nil => cases hc
  | cons hd _ ih =>
    obtain rfl | hc := List.mem_cons.mp hc
    · exact ⟨_, List.mem_cons_self, hd⟩
    · obtain ⟨l, hl, hcl⟩ := ih hc
      exact ⟨l, List.mem_cons_of_mem _ hl, hcl⟩

namespace Percent

def letters (bytes : List UInt8) : List Text := bytes.flatMap fun b => ['%'] :: Hex.digits 2 b.toNat

/-- A text is written with all of its bytes as escapes, whatever the case of their digits. -/
def IsSpelling (t segment : Text) : Prop := List.Forall₂ (· ∈ ·) segment (letters (Utf8.encode t))

theorem bytes_of_letters {bs : List UInt8} {segment : Text}
    (h : List.Forall₂ (· ∈ ·) segment (letters bs)) : bytes segment = bs := by
  induction bs generalizing segment with
  | nil =>
    obtain rfl : segment = [] := List.forall₂_nil_right_iff.mp h
    rfl
  | cons b bs ih =>
    have hl : letters (b :: bs) = ['%'] :: Hex.digit (b.toNat / 16 ^ 1 % 16) ::
        Hex.digit (b.toNat / 16 ^ 0 % 16) :: letters bs := List.flatMap_cons
    rw [hl] at h
    obtain ⟨p, t, hp, ht, rfl⟩ := List.forall₂_cons_right_iff.mp h
    obtain ⟨x, u, hx, hu, rfl⟩ := List.forall₂_cons_right_iff.mp ht
    obtain ⟨y, rest, hy, hr, rfl⟩ := List.forall₂_cons_right_iff.mp hu
    obtain rfl := List.mem_singleton.mp hp
    have hn : Hex.number? [x, y] = some b.toNat :=
      Hex.number?_of_isSpelling (w := 2) (.cons hx (.cons hy .nil)) b.toNat_lt
    rw [bytes, hn]
    dsimp only
    rw [ih hr, UInt8.ofNat_toNat]

theorem decode?_of_isSpelling {t segment : Text} (h : IsSpelling t segment) : decode? segment = some t := by
  rw [decode?, bytes_of_letters h]
  exact Utf8.decode?_encode t

theorem mem_of_isSpelling {t segment : Text} (h : IsSpelling t segment) :
    ∀ c ∈ segment, c ∈ "%0123456789abcdefABCDEF".toList := by
  have hd : ∀ m < 16, Hex.digit m ⊆ "%0123456789abcdefABCDEF".toList := by decide
  intro c hc
  obtain ⟨l, hl, hcl⟩ := Text.exists_mem_of_forall₂ h hc
  obtain ⟨b, -, hb⟩ := List.mem_flatMap.mp hl
  obtain rfl | hb := List.mem_cons.mp hb
  · obtain rfl := List.mem_singleton.mp hcl
    decide
  · obtain ⟨m, hm, rfl⟩ := Hex.mem_digits hb
    exact hd m hm hcl

theorem ne_nil_of_isSpelling {t segment : Text} (h : IsSpelling t segment) (ht : t ≠ []) :
    segment ≠ [] := by
  rintro rfl
  have hd := decode?_of_isSpelling h
  exact ht (Option.some.inj hd).symm

end Percent

end ReceiptPrinter
