import Pineapple.Lib.ShortestReads

/-! # Rounding keeps the order

A ratio that is not smaller than another is not rounded to a smaller double, so that what lies between two ratios that
are rounded to one double is rounded to it as well. -/

namespace Binary64

theorem roundDiv_mono {n b n' b' : Nat} (hb : 0 < b) (hb' : 0 < b') (h : n * b' ≤ n' * b) :
    roundDiv n b ≤ roundDiv n' b' := by
  by_contra hlt
  obtain ⟨hlo, -⟩ := FiniteBinary64.roundDiv_bounds n hb
  obtain ⟨-, hhi⟩ := FiniteBinary64.roundDiv_bounds n' hb'
  obtain ⟨m, hm⟩ : ∃ m, m = roundDiv n' b' := ⟨_, rfl⟩
  rw [← hm] at hlt hhi
  have hnext : (m + 1) * b ≤ roundDiv n b * b := Nat.mul_le_mul_right b (Nat.lt_of_not_le hlt)
  have hbelow : (2 * m + 1) * b ≤ 2 * n := by
    rw [Nat.add_one_mul] at hnext
    rw [Nat.add_one_mul (2 * m), Nat.mul_assoc]
    omega
  have habove : 2 * n' ≤ (2 * m + 1) * b' := by
    rw [Nat.add_one_mul (2 * m), Nat.mul_assoc]
    omega
  -- both ratios lie half way between the same two numbers, of which the even one is taken
  have hchain : 2 * n * b' ≤ 2 * n' * b := by
    rw [Nat.mul_assoc, Nat.mul_assoc]
    exact Nat.mul_le_mul_left 2 h
  have hn : 2 * n = (2 * m + 1) * b := by
    refine Nat.le_antisymm (Nat.le_of_mul_le_mul_right ?_ hb') hbelow
    calc 2 * n * b' ≤ 2 * n' * b := hchain
      _ ≤ (2 * m + 1) * b' * b := Nat.mul_le_mul_right b habove
      _ = (2 * m + 1) * b * b' := Nat.mul_right_comm ..
  have hn' : 2 * n' = (2 * m + 1) * b' := by
    refine Nat.le_antisymm habove (Nat.le_of_mul_le_mul_right ?_ hb)
    calc (2 * m + 1) * b' * b = (2 * m + 1) * b * b' := Nat.mul_right_comm ..
      _ ≤ 2 * n * b' := Nat.mul_le_mul_right b' hbelow
      _ ≤ 2 * n' * b := hchain
  have heven : ∀ {x c : Nat}, 0 < c → 2 * x = (2 * m + 1) * c → roundDiv x c = m + m % 2 := by
    intro x c hc hx
    rw [Nat.add_one_mul (2 * m), Nat.mul_assoc] at hx
    have hdiv : x / c = m := Nat.div_eq_of_lt_le (by omega) (by rw [Nat.add_one_mul]; omega)
    have hsplit := Nat.div_add_mod x c
    rw [hdiv, Nat.mul_comm] at hsplit
    unfold roundDiv
    dsimp only
    rw [hdiv, if_neg (by omega), if_neg (by omega)]
  have hR := heven hb hn
  have hR' := heven hb' hn'
  omega

/-- What a ratio is rounded to, in units of the smallest positive value. -/
def roundedUnits (p q : Nat) : Nat :=
  let n := p * unitsPerOne
  let k := spill (n / q)
  roundDiv n (q * 2 ^ k) * 2 ^ k

theorem roundDiv_spill_le {n q : Nat} : roundDiv n (q * 2 ^ spill (n / q)) ≤ 2 ^ 53 := by
  have hdiv : n / (q * 2 ^ spill (n / q)) < 2 ^ 53 := by
    rw [← Nat.div_div_eq_div_mul, Nat.div_lt_iff_lt_mul (Nat.two_pow_pos _), ← pow_add]
    exact FiniteBinary64.lt_pow_spill _
  unfold roundDiv
  dsimp only
  split
  · omega
  · split <;> omega

theorem spill_mono {a b : Nat} (h : a ≤ b) : spill a ≤ spill b := by
  unfold spill
  rcases Nat.eq_zero_or_pos a with rfl | ha
  · exact (Nat.zero_sub 52).symm ▸ Nat.zero_le _
  · have hlog : a.log2 ≤ b.log2 := (Nat.le_log2 (by omega)).mpr ((Nat.log2_self_le (by omega)).trans h)
    omega

theorem roundedUnits_mono {p q p' q' : Nat} (hq : 0 < q) (hq' : 0 < q') (h : p * q' ≤ p' * q) :
    roundedUnits p q ≤ roundedUnits p' q' := by
  unfold roundedUnits
  obtain ⟨n, hn⟩ : ∃ n, n = p * unitsPerOne := ⟨_, rfl⟩
  obtain ⟨n', hn'⟩ : ∃ n', n' = p' * unitsPerOne := ⟨_, rfl⟩
  have hle : n * q' ≤ n' * q := by
    rw [hn, hn', Nat.mul_right_comm, Nat.mul_right_comm p']
    exact Nat.mul_le_mul_right _ h
  have hdiv : n / q ≤ n' / q' := by
    rw [Nat.le_div_iff_mul_le hq']
    refine Nat.le_of_mul_le_mul_right ?_ hq
    calc n / q * q' * q = n / q * q * q' := Nat.mul_right_comm ..
      _ ≤ n * q' := Nat.mul_le_mul_right q' (Nat.div_mul_le_self n q)
      _ ≤ n' * q := hle
  have hpos : ∀ k, 0 < q * 2 ^ k := fun k => Nat.mul_pos hq (Nat.two_pow_pos k)
  have hpos' : ∀ k, 0 < q' * 2 ^ k := fun k => Nat.mul_pos hq' (Nat.two_pow_pos k)
  dsimp only
  rw [← hn, ← hn']
  rcases Nat.lt_or_eq_of_le (spill_mono hdiv) with hlt | heq
  · have hup := @roundDiv_spill_le n q
    have hlo := @le_roundDiv_spill n' q' (by omega)
    calc roundDiv n (q * 2 ^ spill (n / q)) * 2 ^ spill (n / q)
        ≤ 2 ^ 53 * 2 ^ spill (n / q) := Nat.mul_le_mul_right _ hup
      _ = 2 ^ 52 * 2 ^ (spill (n / q) + 1) := by rw [pow_succ 2 52, pow_succ' 2 (spill _), Nat.mul_assoc]
      _ ≤ roundDiv n' (q' * 2 ^ spill (n' / q')) * 2 ^ spill (n' / q') :=
          Nat.mul_le_mul hlo (Nat.pow_le_pow_right (by decide) hlt)
  · rw [← heq]
    refine Nat.mul_le_mul_right _ (roundDiv_mono (hpos _) (hpos' _) ?_)
    rw [← Nat.mul_assoc, ← Nat.mul_assoc]
    exact Nat.mul_le_mul_right _ hle

/-- The first magnitude that is rounded to an infinity. -/
def infiniteUnits : Nat := 2 ^ 52 * 2 ^ 2046

theorem ofRatio_cases (neg : Bool) (p q : Nat) :
    (∃ f : FiniteBinary64, ofRatio neg p q = .finite f ∧ f.neg = neg ∧ f.units = roundedUnits p q) ∨
      ofRatio neg p q = .inf neg ∧ infiniteUnits ≤ roundedUnits p q := by
  have hunits : ∀ {m k : Nat} {hm : m < 2 ^ 53} {hn : 2 ^ 52 ≤ m ∨ k = 0}, m * 2 ^ k = roundedUnits p q →
      (∃ f : FiniteBinary64, ofUnits neg m k hm hn = .finite f ∧ f.neg = neg ∧ f.units = roundedUnits p q) ∨
        ofUnits neg m k hm hn = .inf neg ∧ infiniteUnits ≤ roundedUnits p q := by
    intro m k hm hn heq
    by_cases hk : k ≤ 2045
    · have hfinite : ofUnits neg m k hm hn = .finite _ := dif_pos hk
      exact .inl ⟨_, hfinite, rfl, (FiniteBinary64.units_of_ofUnits hfinite).trans heq⟩
    · refine .inr ⟨dif_neg hk, ?_⟩
      obtain ⟨j, hj, hunits⟩ : ∃ j, j = 2046 ∧ infiniteUnits = 2 ^ 52 * 2 ^ j := ⟨2046, rfl, rfl⟩
      rw [← heq, hunits]
      exact Nat.mul_le_mul (hn.resolve_right (by omega)) (Nat.pow_le_pow_right (by decide) (by omega))
  unfold ofRatio
  dsimp only
  split
  · exact hunits rfl
  · next hge =>
    refine hunits ?_
    have heq : roundDiv (p * unitsPerOne) (q * 2 ^ spill (p * unitsPerOne / q)) = 2 ^ 53 :=
      Nat.le_antisymm roundDiv_spill_le (Nat.le_of_not_lt hge)
    unfold roundedUnits
    dsimp only
    rw [heq, pow_succ 2 52, pow_succ' 2 (spill _), Nat.mul_assoc]

end Binary64

namespace FiniteBinary64
open Binary64

variable {f g : FiniteBinary64}

theorem units_lt (f : FiniteBinary64) : f.units < infiniteUnits := by
  have hle := f.exp_le
  obtain ⟨i, hi, hunits⟩ : ∃ i, i = 2046 ∧ infiniteUnits = 2 ^ 52 * 2 ^ i := ⟨2046, rfl, rfl⟩
  obtain ⟨j, rfl⟩ : ∃ j, i = j + 1 := ⟨i - 1, by omega⟩
  have hpow : 2 ^ (f.exp + 1074).toNat ≤ 2 ^ j := Nat.pow_le_pow_right (by decide) (by omega)
  calc f.units < 2 ^ 53 * 2 ^ (f.exp + 1074).toNat := Nat.mul_lt_mul_of_pos_right f.mant_lt (Nat.two_pow_pos _)
    _ ≤ 2 ^ 53 * 2 ^ j := Nat.mul_le_mul_left _ hpow
    _ = infiniteUnits := by rw [hunits, pow_succ 2 52, pow_succ' 2 j, Nat.mul_assoc]

theorem eq_of_units (hneg : f.neg = g.neg) (h : f.units = g.units) : f = g := by
  have hf := ofRatio_units f
  rw [hneg, h, ofRatio_units g] at hf
  exact (Binary64.finite.inj hf).symm

theorem ofRatio_eq_iff {p q : Nat} : ofRatio f.neg p q = .finite f ↔ roundedUnits p q = f.units := by
  have hlt := f.units_lt
  rcases ofRatio_cases f.neg p q with ⟨g, hg, hneg, hunits⟩ | ⟨hinf, hge⟩
  · rw [hg, ← hunits]
    exact ⟨fun h => by rw [Binary64.finite.inj h], fun h => by rw [eq_of_units hneg h]⟩
  · rw [hinf]
    exact iff_of_false nofun (by omega)

/-- What lies between two ratios that are rounded to a double is rounded to it. -/
theorem ofRatio_between {p q p' q' p'' q'' : Nat} (hq : 0 < q) (hq' : 0 < q') (hq'' : 0 < q'') (h : p * q' ≤ p' * q)
    (h' : p' * q'' ≤ p'' * q') (hlo : ofRatio f.neg p q = .finite f) (hhi : ofRatio f.neg p'' q'' = .finite f) :
    ofRatio f.neg p' q' = .finite f := by
  rw [ofRatio_eq_iff] at hlo
  rw [ofRatio_eq_iff] at hhi
  rw [ofRatio_eq_iff]
  exact Nat.le_antisymm ((roundedUnits_mono hq' hq'' h').trans hhi.le) (hlo.ge.trans (roundedUnits_mono hq hq' h))

/-- Where a decimal of so many digits is read back, so is one of the two around the double. -/
theorem readBack_of_scaled {k m : Nat} (hf : f.mant ≠ 0)
    (h : NumberText.scaled f.neg 10 (m, f.digitExponent k) = .finite f) : (f.readBack k).isSome = true := by
  have hU := unitsPerOne_pos
  have hu := units_pos hf
  have hD := den_pos hU (f.digitExponent k)
  have hdiv := Nat.div_add_mod (num f.units (f.digitExponent k)) (den unitsPerOne (f.digitExponent k))
  have hmod := Nat.mod_lt (num f.units (f.digitExponent k)) hD
  have hlower : num f.units (f.digitExponent k) / den unitsPerOne (f.digitExponent k) = f.lower k := rfl
  rw [hlower, Nat.mul_comm] at hdiv
  obtain ⟨p, q, hq, hscaled, hp, hnum⟩ := scaled_eq_ofRatio f.neg m f.units (f.digitExponent k)
  rw [hscaled] at h
  -- ratios of one denominator are ordered as the digits are
  have hratio : ∀ m', ∃ p', NumberText.scaled f.neg 10 (m', f.digitExponent k) = ofRatio f.neg p' q ∧
      p' * unitsPerOne = m' * den unitsPerOne (f.digitExponent k) := by
    intro m'
    obtain ⟨p', q', -, hscaled', hp', hnum'⟩ := scaled_eq_ofRatio f.neg m' f.units (f.digitExponent k)
    obtain rfl : q' = q := Nat.eq_of_mul_eq_mul_left hu (hnum'.trans hnum.symm)
    exact ⟨p', hscaled', hp'⟩
  have horder : ∀ {p' m' : Nat}, p' * unitsPerOne = m' * den unitsPerOne (f.digitExponent k) →
      (m ≤ m' → p * q ≤ p' * q) ∧ (m' ≤ m → p' * q ≤ p * q) := by
    refine fun hp' => ⟨fun hle => Nat.mul_le_mul_right q ?_, fun hle => Nat.mul_le_mul_right q ?_⟩
    · refine Nat.le_of_mul_le_mul_right ?_ hU
      rw [hp, hp']
      exact Nat.mul_le_mul_right _ hle
    · refine Nat.le_of_mul_le_mul_right ?_ hU
      rw [hp, hp']
      exact Nat.mul_le_mul_right _ hle
  rw [readBack_isSome]
  rcases Nat.lt_or_ge (f.lower k) m with hlt | hle
  · obtain ⟨p', hscaled', hp'⟩ := hratio (f.lower k + 1)
    refine ⟨(f.lower k + 1, f.digitExponent k), mem_neighbours.mpr ⟨.inr rfl, rfl⟩, ?_⟩
    rw [hscaled']
    refine ofRatio_between hU hq hq ?_ ((horder hp').2 hlt) (ofRatio_units f) h
    rw [hp', hnum, Nat.add_one_mul]
    omega
  · obtain ⟨p', hscaled', hp'⟩ := hratio (f.lower k)
    refine ⟨(f.lower k, f.digitExponent k), mem_neighbours.mpr ⟨.inl rfl, rfl⟩, ?_⟩
    rw [hscaled']
    refine ofRatio_between hq hq hU ((horder hp').1 hle) ?_ h (ofRatio_units f)
    rw [hp', hnum]
    omega

end FiniteBinary64
