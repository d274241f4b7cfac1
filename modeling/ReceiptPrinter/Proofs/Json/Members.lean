import ReceiptPrinter.Proofs.Json.RoundTrip

namespace ReceiptPrinter.Json.Value

variable {key : Text} {ms ms' : List Member}

theorem isNull_eq_false {v : Value} (h : v ≠ .null) : v.isNull = false := by
  cases v with
  | null => exact absurd rfl h
  | _ => rfl

theorem withKey_cons_self (key : Text) (v : Value) (ms : List Member) :
    withKey key ((some key, v) :: ms) = v :: withKey key ms :=
  List.filterMap_cons_some (if_pos rfl)

theorem withKey_cons_of_ne {key k : Text} (h : k ≠ key) (v : Value) (ms : List Member) :
    withKey key ((some k, v) :: ms) = withKey key ms :=
  List.filterMap_cons_none (if_neg fun he => h (Option.some.inj he))

theorem withKey_append (key : Text) (a b : List Member) :
    withKey key (a ++ b) = withKey key a ++ withKey key b :=
  List.filterMap_append

theorem only_eq_some_iff {v : Value} : only key ms = some v ↔ withKey key ms = [v] := by
  rw [only]
  split
  · next w h => rw [h, Option.some_inj, List.singleton_inj]
  · next h => exact iff_of_false nofun fun hv => h v hv

theorem only_eq_none_iff : only key ms = none ↔ (withKey key ms).length ≠ 1 := by
  rw [Option.eq_none_iff_forall_ne_some, ne_eq, List.length_eq_one_iff, not_exists]
  exact forall_congr' fun v => not_congr only_eq_some_iff

theorem only_congr (h : (withKey key ms').Perm (withKey key ms)) : only key ms' = only key ms := by
  apply Option.ext
  intro v
  rw [only_eq_some_iff, only_eq_some_iff]
  constructor
  · intro hv
    rw [hv] at h
    exact (List.singleton_perm.mp h).symm
  · intro hv
    rw [hv] at h
    exact List.perm_singleton.mp h

section Place

variable {k : Text} {v : Value} {a b : List Member}

theorem only_place_of_ne (h : k ≠ key) : only key (a ++ (some k, v) :: b) = only key (a ++ b) := by
  rw [only, only, withKey_append, withKey_append, withKey_cons_of_ne h]

theorem only_place (h : withKey k (a ++ b) = []) : only k (a ++ (some k, v) :: b) = some v := by
  rw [withKey_append, List.append_eq_nil_iff] at h
  rw [only_eq_some_iff, withKey_append, withKey_cons_self, h.1, h.2, List.nil_append]

theorem only_place_eq_none (h : withKey k (a ++ b) ≠ []) : only k (a ++ (some k, v) :: b) = none := by
  have hl := List.length_pos_iff.mpr h
  rw [withKey_append, List.length_append] at hl
  rw [only_eq_none_iff, withKey_append, withKey_cons_self, List.length_append, List.length_cons]
  omega

theorem keyed_place : keyed (a ++ (some k, v) :: b) = keyed (a ++ b) := by
  simp [keyed]

theorem storable_place (levels : Nat) : (object (a ++ (some k, v) :: b)).storable (levels + 1) =
    (storableMembers levels (a ++ b) && v.storable levels) := by
  simp only [storable, storableMembers_eq, List.all_append, List.all_cons, Option.isSome_some, Bool.true_and,
    Nat.add_sub_cancel, Nat.zero_lt_succ, decide_true]
  rw [Bool.and_left_comm, Bool.and_comm]

end Place

mutual

theorem storable_mono {n m : Nat} (hnm : n ≤ m) : ∀ v : Value, v.storable n = true → v.storable m = true
  | .null, _ => rfl
  | .bool _, _ => rfl
  | .number _, h => h
  | .string _, h => h
  | .array items, h => by
    rw [storable, Bool.and_eq_true, decide_eq_true_eq] at h ⊢
    exact ⟨h.1.trans_le hnm, storableItems_mono (Nat.sub_le_sub_right hnm 1) items h.2⟩
  | .object ms, h => by
    rw [storable, Bool.and_eq_true, decide_eq_true_eq] at h ⊢
    exact ⟨h.1.trans_le hnm, storableMembers_mono (Nat.sub_le_sub_right hnm 1) ms h.2⟩

theorem storableItems_mono {n m : Nat} (hnm : n ≤ m) :
    ∀ items : List Value, storableItems n items = true → storableItems m items = true
  | [], _ => rfl
  | v :: items, h => by
    rw [storableItems, Bool.and_eq_true] at h ⊢
    exact ⟨storable_mono hnm v h.1, storableItems_mono hnm items h.2⟩

theorem storableMembers_mono {n m : Nat} (hnm : n ≤ m) :
    ∀ ms : List Member, storableMembers n ms = true → storableMembers m ms = true
  | [], _ => rfl
  | (k, v) :: ms, h => by
    rw [storableMembers, Bool.and_eq_true, Bool.and_eq_true] at h ⊢
    exact ⟨⟨h.1.1, storable_mono hnm v h.1.2⟩, storableMembers_mono hnm ms h.2⟩

end

/-- The member has a key of its own. Its value may be kept as data, nested up to a hundred levels. -/
def IsOther (known : List Text) (m : Member) : Prop :=
  (∃ k, m.1 = some k ∧ k ∉ known) ∧ m.2.storable 100 = true

/-- The members in another order, and others among them. -/
def Widened (known : List Text) (ms ms' : List Member) : Prop :=
  ∃ others, ms'.Perm (ms ++ others) ∧ ∀ m ∈ others, IsOther known m

namespace Widened

variable {known : List Text}

theorem withKey_perm (h : Widened known ms ms') (hk : key ∈ known) :
    (withKey key ms').Perm (withKey key ms) := by
  obtain ⟨others, hp, ho⟩ := h
  have hn : withKey key others = [] := by
    rw [withKey, List.filterMap_eq_nil_iff]
    rintro ⟨_, v⟩ hm
    obtain ⟨⟨k, rfl, hknown⟩, -⟩ := ho _ hm
    have hne : k ≠ key := by
      rintro rfl
      exact hknown hk
    exact if_neg fun he => hne (Option.some.inj he)
  have hw : (withKey key ms').Perm (withKey key (ms ++ others)) := hp.filterMap _
  rwa [withKey_append, hn, List.append_nil] at hw

theorem only_eq (h : Widened known ms ms') (hk : key ∈ known) : only key ms' = only key ms :=
  only_congr (h.withKey_perm hk)

theorem all_eq (h : Widened known ms ms') {p : Member → Bool} (ho : ∀ m, IsOther known m → p m = true) :
    ms'.all p = ms.all p := by
  obtain ⟨others, hp, hothers⟩ := h
  rw [hp.all_eq, List.all_append, List.all_eq_true.mpr fun m hm => ho m (hothers m hm), Bool.and_true]

theorem keyed_eq (h : Widened known ms ms') : keyed ms' = keyed ms := by
  apply h.all_eq
  rintro m ⟨⟨k, hk, -⟩, -⟩
  rw [hk]
  rfl

theorem storable_eq (h : Widened known ms ms') {levels : Nat} (hl : 100 < levels) :
    (object ms').storable levels = (object ms).storable levels := by
  rw [storable, storable, storableMembers_eq, storableMembers_eq]
  congr 1
  apply h.all_eq
  rintro m ⟨⟨k, hk, -⟩, hs⟩
  rw [hk, storable_mono (Nat.le_sub_one_of_lt hl) m.2 hs]
  rfl

end Widened

end ReceiptPrinter.Json.Value
