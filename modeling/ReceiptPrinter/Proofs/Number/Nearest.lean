import ReceiptPrinter.Proofs.Number.Codes

namespace ReceiptPrinter.Number.Binary

theorem Basin.holds_iff (i : Basin) (x : Rat) : i.holds x = true ↔
    i.low ≤ x ∧ x ≤ i.high ∧ (x = i.low ∨ x = i.high → i.closed = true) := by
  unfold holds
  cases i.closed with
  | true => simp
  | false =>
    simp only [Bool.false_eq_true, ↓reduceIte, Bool.and_eq_true, decide_eq_true_eq, imp_false, not_or]
    constructor
    · rintro ⟨hl, hh⟩
      exact ⟨hl.le, hh.le, hl.ne', hh.ne⟩
    · rintro ⟨hl, hh, hnl, hnh⟩
      exact ⟨lt_of_le_of_ne hl (Ne.symm hnl), lt_of_le_of_ne hh hnh⟩

theorem Basin.holds_of_lt (i : Basin) {x : Rat} (hl : i.low < x) (hh : x < i.high) : i.holds x = true :=
  (i.holds_iff x).mpr
    ⟨hl.le, hh.le, fun h => h.elim (fun h => absurd h hl.ne') fun h => absurd h hh.ne⟩

variable (b : Binary)

theorem closed_basin (c : Nat) : (b.basin c).closed = true ↔ c % 2 = 0 := by
  simp [basin]

theorem value_lt_high_basin (c : Nat) : b.value c < (b.basin c).high := by
  have h := b.value_strictMono (Nat.lt_succ_self c)
  dsimp only [basin]
  linarith

theorem low_basin_lt_value {c : Nat} (hc : c ≠ 0) : (b.basin c).low < b.value c := by
  have h := b.value_strictMono (Nat.sub_lt (Nat.pos_of_ne_zero hc) one_pos)
  dsimp only [basin]
  linarith

theorem low_basin_pos {c : Nat} (hc : c ≠ 0) : 0 < (b.basin c).low := by
  have hp := b.value_nonneg (c - 1)
  have hv : 0 < b.value c := by
    rw [← b.value_zero]
    exact b.value_strictMono (Nat.pos_of_ne_zero hc)
  dsimp only [basin]
  linarith

theorem width_basin {c : Nat} (hc : c ≠ 0) :
    (b.basin c).high - (b.basin c).low = (b.gap (c - 1) + b.gap c) / 2 := by
  obtain ⟨d, rfl⟩ := Nat.exists_eq_add_one_of_ne_zero hc
  dsimp only [basin]
  rw [Nat.add_sub_cancel, b.value_succ (d + 1), b.value_succ d]
  ring

theorem two_zpow_lowest_le_width {c : Nat} (hc : c ≠ 0) :
    (2 : Rat) ^ b.lowest ≤ (b.basin c).high - (b.basin c).low := by
  have hg : ∀ d, (2 : Rat) ^ b.lowest ≤ b.gap d := fun d =>
    zpow_le_zpow_right₀ (by norm_num) (by omega)
  rw [b.width_basin hc]
  linarith [hg (c - 1), hg c]

theorem gap_le_width {c : Nat} (hc : c ≠ 0) :
    3 / 4 * b.gap c ≤ (b.basin c).high - (b.basin c).low := by
  obtain ⟨d, rfl⟩ := Nat.exists_eq_add_one_of_ne_zero hc
  have hd := b.gap_succ_le d
  rw [b.width_basin hc, Nat.add_sub_cancel]
  linarith

theorem not_holds_of_lt {c d : Nat} {x : Rat} (hcd : c < d) (hc : (b.basin c).holds x = true)
    (hd : (b.basin d).holds x = true) : False := by
  obtain ⟨-, hch, hct⟩ := (Basin.holds_iff _ _).mp hc
  obtain ⟨hdl, -, hdt⟩ := (Basin.holds_iff _ _).mp hd
  have hv : b.value c ≤ b.value (d - 1) := b.value_strictMono.monotone (by omega)
  have hs : b.value (c + 1) ≤ b.value d := b.value_strictMono.monotone hcd
  have hlow : (b.basin d).low = (b.value (d - 1) + b.value d) / 2 := rfl
  have hhigh : (b.basin c).high = (b.value c + b.value (c + 1)) / 2 := rfl
  -- The two basins touch at most, and then both would be closed there.
  have he : b.value (c + 1) = b.value d := by linarith
  have hn : c + 1 = d := b.value_strictMono.injective he
  have hxh : x = (b.basin c).high := by linarith
  have hxl : x = (b.basin d).low := by linarith
  have h0 := (b.closed_basin c).mp (hct (Or.inr hxh))
  have h1 := (b.closed_basin d).mp (hdt (Or.inl hxl))
  omega

theorem eq_of_holds {c d : Nat} {x : Rat} (hc : (b.basin c).holds x = true)
    (hd : (b.basin d).holds x = true) : c = d := by
  obtain h | h | h := lt_trichotomy c d
  · exact (b.not_holds_of_lt h hc hd).elim
  · exact h
  · exact (b.not_holds_of_lt h hd hc).elim

/-- The code that a magnitude rounds to where no value is the largest. -/
def rounded (x : Rat) : Nat :=
  (b.spacing x - b.lowest).toNat * b.band + roundHalfEven (x / 2 ^ b.spacing x)

theorem nearest_of_pos {x : Rat} (hx : 0 < x) : b.nearest x = min b.infinity (b.rounded x) := by
  rw [nearest, if_neg (not_le.mpr hx)]
  rfl

theorem lowest_le_spacing (x : Rat) : b.lowest ≤ b.spacing x := le_max_left _ _

theorem scaled_lt {x : Rat} (hx : 0 < x) : x / 2 ^ b.spacing x < (2 * b.band : Nat) := by
  have hle : log2 x + 1 ≤ b.fraction + 1 + b.spacing x := by
    have : log2 x - b.fraction ≤ b.spacing x := le_max_right _ _
    omega
  rw [div_lt_iff₀ (by positivity), Nat.cast_mul, b.cast_band]
  calc x < 2 ^ (log2 x + 1) := lt_zpow_log2 hx
    _ ≤ 2 ^ ((b.fraction : Int) + 1 + b.spacing x) := zpow_le_zpow_right₀ (by norm_num) hle
    _ = (2 : Nat) * 2 ^ (b.fraction : Int) * 2 ^ b.spacing x := by
      rw [zpow_add₀ (by norm_num), two_zpow_add_one, Nat.cast_ofNat]

theorem band_le_scaled {x : Rat} (hx : 0 < x) (hs : b.spacing x ≠ b.lowest) :
    (b.band : Rat) ≤ x / 2 ^ b.spacing x := by
  have he : b.spacing x = log2 x - b.fraction := by
    unfold spacing at *
    omega
  rw [le_div_iff₀ (by positivity), b.cast_band, ← zpow_add₀ (by norm_num), he, add_sub_cancel]
  exact zpow_log2_le hx

theorem isNearest_scaled {x : Rat} (hx : 0 < x) :
    IsNearest (x / 2 ^ b.spacing x) (roundHalfEven (x / 2 ^ b.spacing x)) :=
  isNearest_roundHalfEven (by positivity)

theorem placed_rounded {x : Rat} (hx : 0 < x) :
    b.Placed (b.spacing x - b.lowest).toNat (roundHalfEven (x / 2 ^ b.spacing x)) where
  le := (b.isNearest_scaled hx).le_of_lt (b.scaled_lt hx)
  lowest_or_le := by
    have hl := b.lowest_le_spacing x
    by_cases hs : b.spacing x = b.lowest
    · exact Or.inl (by omega)
    · exact Or.inr ((b.isNearest_scaled hx).le_of_le (b.band_le_scaled hx hs))

theorem value_rounded {x : Rat} (hx : 0 < x) :
    b.value (b.rounded x) = roundHalfEven (x / 2 ^ b.spacing x) * 2 ^ b.spacing x := by
  have hl := b.lowest_le_spacing x
  rw [rounded, (b.placed_rounded hx).value_eq, Int.toNat_of_nonneg (by omega), add_sub_cancel]

theorem abs_value_rounded_sub_le {x : Rat} (hx : 0 < x) (hl : b.band * 2 ^ b.lowest ≤ x) :
    |b.value (b.rounded x) - x| ≤ x / (2 * b.band) := by
  have hp : (0 : Rat) < 2 ^ b.spacing x := by positivity
  have hb : (0 : Rat) < b.band := by exact_mod_cast b.band_pos
  have hn := b.isNearest_scaled hx
  have hge : b.band * 2 ^ b.spacing x ≤ x := by
    by_cases hs : b.spacing x = b.lowest
    · rwa [hs]
    · exact (le_div_iff₀ hp).mp (b.band_le_scaled hx hs)
  have hhalf : 2 ^ b.spacing x / 2 ≤ x / (2 * b.band) := by
    rw [le_div_iff₀ (by positivity)]
    linarith
  have hlow := (le_div_iff₀ hp).mp hn.low
  have hhigh := (div_le_iff₀ hp).mp hn.high
  rw [b.value_rounded hx]
  refine le_trans (abs_le.mpr ⟨?_, ?_⟩) hhalf <;> linarith

variable {b}

theorem Placed.le_high {k r : Nat} {m : Rat} (h : b.Placed k r) (hn : IsNearest m r)
    (hm : m < (2 * b.band : Nat)) :
    m * 2 ^ (b.lowest + k) ≤ (b.basin (k * b.band + r)).high ∧
      (m * 2 ^ (b.lowest + k) = (b.basin (k * b.band + r)).high → r % 2 = 0) := by
  have hpos : (0 : Rat) < 2 ^ (b.lowest + k) := by positivity
  have hv := h.value_eq
  by_cases hr : r < 2 * b.band
  · have hh : (b.basin (k * b.band + r)).high = (r + 1 / 2) * 2 ^ (b.lowest + k) := by
      dsimp only [basin]
      rw [h.value_succ hr, hv]
      ring
    rw [hh]
    exact ⟨mul_le_mul_of_nonneg_right hn.high hpos.le,
      fun he => hn.even_of_high (mul_right_cancel₀ hpos.ne' he)⟩
  · have he : r = 2 * b.band := le_antisymm h.le (not_lt.mp hr)
    have hlt : m * 2 ^ (b.lowest + k) < (b.basin (k * b.band + r)).high := by
      have hh := b.value_lt_high_basin (k * b.band + r)
      rw [hv] at hh
      rw [← he] at hm
      exact (mul_lt_mul_of_pos_right hm hpos).trans hh
    exact ⟨hlt.le, fun h => absurd h hlt.ne⟩

theorem Placed.low_le {k r : Nat} {m : Rat} (h : b.Placed k r) (hn : IsNearest m r) (hm : 0 < m)
    (hk : k = 0 ∨ (b.band : Rat) ≤ m) :
    (b.basin (k * b.band + r)).low ≤ m * 2 ^ (b.lowest + k) ∧
      (m * 2 ^ (b.lowest + k) = (b.basin (k * b.band + r)).low → r % 2 = 0) := by
  have hpos : (0 : Rat) < 2 ^ (b.lowest + k) := by positivity
  have hv := h.value_eq
  by_cases hr : 0 < r ∧ b.Placed k (r - 1)
  · obtain ⟨hr, hp⟩ := hr
    have hl : (b.basin (k * b.band + r)).low = (r - 1 / 2) * 2 ^ (b.lowest + k) := by
      have hs : k * b.band + r - 1 = k * b.band + (r - 1) := by omega
      dsimp only [basin]
      rw [hs, hp.value_eq, hv, Nat.cast_sub hr, Nat.cast_one]
      ring
    rw [hl]
    exact ⟨mul_le_mul_of_nonneg_right hn.low hpos.le,
      fun he => hn.even_of_low (mul_right_cancel₀ hpos.ne' he)⟩
  · have hlt : (b.basin (k * b.band + r)).low < m * 2 ^ (b.lowest + k) := by
      obtain hk0 | hkm := hk
      · have hr0 : r = 0 := by
          by_contra hne
          exact hr ⟨Nat.pos_of_ne_zero hne, by have := h.le; omega, Or.inl hk0⟩
        subst hk0 hr0
        have hl : (b.basin (0 * b.band + 0)).low = 0 := by
          simp [basin, b.value_zero]
        rw [hl]
        exact mul_pos hm hpos
      · -- The lower end of a band lies below all that is scaled into it.
        have hbr : r = b.band ∨ r = 0 := by
          by_contra hne
          rw [not_or] at hne
          have hge := hn.le_of_le hkm
          exact hr ⟨by omega, by have := h.le; omega, Or.inr (by omega)⟩
        have hge := hn.le_of_le hkm
        have hb := b.band_pos
        have hre : r = b.band := by omega
        have hl := b.low_basin_lt_value (c := k * b.band + r) (by omega)
        rw [hv, hre] at hl
        rw [hre]
        exact hl.trans_le (mul_le_mul_of_nonneg_right hkm hpos.le)
    exact ⟨hlt.le, fun h => absurd h hlt.ne'⟩

variable (b)

theorem holds_rounded (hb : b.band % 2 = 0) {x : Rat} (hx : 0 < x) :
    (b.basin (b.rounded x)).holds x = true := by
  have hp := b.placed_rounded hx
  have hn := b.isNearest_scaled hx
  have hl := b.lowest_le_spacing x
  have hk : b.lowest + ((b.spacing x - b.lowest).toNat : Int) = b.spacing x := by omega
  have hxe : x / 2 ^ b.spacing x * 2 ^ b.spacing x = x := div_mul_cancel₀ x (by positivity)
  have hm : (b.spacing x - b.lowest).toNat = 0 ∨ (b.band : Rat) ≤ x / 2 ^ b.spacing x := by
    by_cases hs : b.spacing x = b.lowest
    · exact Or.inl (by omega)
    · exact Or.inr (b.band_le_scaled hx hs)
  have hhigh := hp.le_high hn (b.scaled_lt hx)
  have hlow := hp.low_le hn (by positivity) hm
  rw [hk, hxe] at hhigh hlow
  have heven : roundHalfEven (x / 2 ^ b.spacing x) % 2 = 0 → b.rounded x % 2 = 0 := by
    intro h
    rw [rounded, Nat.add_mod, Nat.mul_mod, hb, h, Nat.mul_zero]
  rw [Basin.holds_iff, closed_basin]
  exact ⟨hlow.1, hhigh.1, fun h => heven (h.elim hlow.2 hhigh.2)⟩

theorem nearest_of_holds (hb : b.band % 2 = 0) {c : Nat} (hc : c < b.infinity) {x : Rat} (hx : 0 < x)
    (h : (b.basin c).holds x = true) : b.nearest x = c := by
  have he := b.eq_of_holds h (b.holds_rounded hb hx)
  rw [b.nearest_of_pos hx, ← he, Nat.min_eq_right hc.le]

theorem nearest_le_of_lt_high (hb : b.band % 2 = 0) {c : Nat} {x : Rat} (hx : x < (b.basin c).high) :
    b.nearest x ≤ c := by
  by_cases hp : 0 < x
  · rw [b.nearest_of_pos hp]
    refine (Nat.min_le_right _ _).trans (not_lt.mp fun hlt => ?_)
    obtain ⟨hl, -, -⟩ := (Basin.holds_iff _ _).mp (b.holds_rounded hb hp)
    have hv : b.value c ≤ b.value (b.rounded x - 1) := b.value_strictMono.monotone (by omega)
    have hs : b.value (c + 1) ≤ b.value (b.rounded x) := b.value_strictMono.monotone hlt
    dsimp only [basin] at hl hx
    linarith
  · rw [nearest, if_pos (not_lt.mp hp)]
    exact Nat.zero_le c

theorem le_nearest_of_value_le (hb : b.band % 2 = 0) {c : Nat} (hc : c ≤ b.infinity) {x : Rat}
    (hx : b.value c ≤ x) : c ≤ b.nearest x := by
  by_cases hp : 0 < x
  · rw [b.nearest_of_pos hp]
    refine le_min hc (not_lt.mp fun hlt => ?_)
    obtain ⟨-, hh, -⟩ := (Basin.holds_iff _ _).mp (b.holds_rounded hb hp)
    have hv : b.value (b.rounded x + 1) ≤ b.value c := b.value_strictMono.monotone hlt
    have hs : b.value (b.rounded x) < b.value (b.rounded x + 1) := b.value_strictMono (by omega)
    dsimp only [basin] at hh
    linarith
  · have hz : b.value c ≤ b.value 0 := by
      rw [b.value_zero]
      exact hx.trans (not_lt.mp hp)
    exact (b.value_strictMono.le_iff_le.mp hz).trans (Nat.zero_le _)

theorem nearest_mono (hb : b.band % 2 = 0) : Monotone b.nearest := by
  intro x y hxy
  by_cases hx : 0 < x
  · obtain rfl | hlt := hxy.eq_or_lt
    · exact le_rfl
    · have hy := hx.trans hlt
      rw [b.nearest_of_pos hx, b.nearest_of_pos hy]
      apply min_le_min_left
      by_contra hc
      obtain ⟨hl, -, -⟩ := (Basin.holds_iff _ _).mp (b.holds_rounded hb hx)
      obtain ⟨-, hh, -⟩ := (Basin.holds_iff _ _).mp (b.holds_rounded hb hy)
      have hv : b.value (b.rounded y) ≤ b.value (b.rounded x - 1) := b.value_strictMono.monotone (by omega)
      have hs : b.value (b.rounded y + 1) ≤ b.value (b.rounded x) := b.value_strictMono.monotone (by omega)
      dsimp only [basin] at hl hh
      linarith
  · have h0 : b.nearest x = 0 := if_pos (not_lt.mp hx)
    rw [h0]
    exact Nat.zero_le _

theorem value_rounded_of_spacing_le {x : Rat} (hx : 0 < x) {j : Nat} {g : Int}
    (hg : b.spacing x ≤ g) (hj : x = j * 2 ^ g) : b.value (b.rounded x) = x := by
  obtain ⟨d, hd⟩ := Int.eq_ofNat_of_zero_le (sub_nonneg.mpr hg)
  have hge : g = d + b.spacing x := by omega
  have hxe : x = (j * 2 ^ d : Nat) * 2 ^ b.spacing x := by
    rw [hge, zpow_add₀ (by norm_num), zpow_natCast, ← mul_assoc] at hj
    push_cast
    exact hj
  have hs : x / 2 ^ b.spacing x = (j * 2 ^ d : Nat) := (div_eq_iff (by positivity)).mpr hxe
  have hr : roundHalfEven (x / 2 ^ b.spacing x) = j * 2 ^ d := by
    have hn := b.isNearest_scaled hx
    rw [hs] at hn ⊢
    exact hn.eq_of_natCast
  rw [b.value_rounded hx, hr, ← hxe]

theorem exists_value_rounded {x : Rat} (hx : 0 < x) {j : Nat} {g : Int} (hj : x = j * 2 ^ g) :
    ∃ i : Nat, b.value (b.rounded x) = i * 2 ^ g := by
  by_cases h : b.spacing x ≤ g
  · exact ⟨j, (b.value_rounded_of_spacing_le hx h hj).trans hj⟩
  · obtain ⟨d, hd⟩ := Int.eq_ofNat_of_zero_le (sub_nonneg.mpr (not_le.mp h).le)
    have hge : b.spacing x = d + g := by omega
    refine ⟨roundHalfEven (x / 2 ^ b.spacing x) * 2 ^ d, ?_⟩
    rw [b.value_rounded hx]
    generalize roundHalfEven (x / 2 ^ b.spacing x) = r
    rw [hge, zpow_add₀ (by norm_num), zpow_natCast]
    push_cast
    ring

theorem exists_value_nearest {x : Rat} {j : Nat} {g : Int} (hj : x = j * 2 ^ g)
    (hi : b.nearest x < b.infinity) : ∃ i : Nat, b.value (b.nearest x) = i * 2 ^ g := by
  by_cases hx : 0 < x
  · have hn := b.nearest_of_pos hx
    have he : b.nearest x = b.rounded x := by omega
    rw [he]
    exact b.exists_value_rounded hx hj
  · refine ⟨0, ?_⟩
    rw [nearest, if_pos (not_lt.mp hx), b.value_zero, Nat.cast_zero, zero_mul]

theorem value_rounded_of_lt {x : Rat} (hx : 0 < x) {m : Nat} {g : Int} (hm : m < 2 * b.band)
    (hg : b.lowest ≤ g) (hj : x = m * 2 ^ g) : b.value (b.rounded x) = x := by
  refine b.value_rounded_of_spacing_le hx (not_lt.mp fun hlt => ?_) hj
  have hge := b.band_le_scaled hx (by omega)
  have htwo : (2 : Rat) * 2 ^ g ≤ 2 ^ b.spacing x := by
    rw [← two_zpow_add_one]
    exact zpow_le_zpow_right₀ (by norm_num) (by omega)
  have hmr : (m : Rat) < 2 * b.band := by exact_mod_cast hm
  have hpos : (0 : Rat) < 2 ^ g := by positivity
  have hb : (0 : Rat) ≤ b.band := Nat.cast_nonneg _
  rw [le_div_iff₀ (by positivity)] at hge
  have hlow : (b.band : Rat) * (2 * 2 ^ g) ≤ x := (mul_le_mul_of_nonneg_left htwo hb).trans hge
  have hup : x < 2 * b.band * 2 ^ g := hj ▸ mul_lt_mul_of_pos_right hmr hpos
  linarith

theorem value_nearest_of_lt {x : Rat} (hx : 0 < x) {m : Nat} {g : Int} (hm : m < 2 * b.band)
    (hg : b.lowest ≤ g) (hj : x = m * 2 ^ g) (hi : x < b.value b.infinity) :
    b.nearest x < b.infinity ∧ b.value (b.nearest x) = x := by
  have hv := b.value_rounded_of_lt hx hm hg hj
  have hlt : b.rounded x < b.infinity := by
    rw [← hv] at hi
    exact b.value_strictMono.lt_iff_lt.mp hi
  rw [b.nearest_of_pos hx, Nat.min_eq_right hlt.le]
  exact ⟨hlt, hv⟩

end ReceiptPrinter.Number.Binary
