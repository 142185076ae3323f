import Mathlib.Data.List.Basic
import Mathlib.Data.List.Nodup

/-! # The positions of repeated keys

A loop that keeps the set of the keys it has seen, and the positions it finds repeated. -/

namespace Repeats

variable {κ : Type*} [DecidableEq κ]

/-- The positions from `i` on whose key has been seen. -/
def scan (seen : List κ) (i : Nat) : List κ → List Nat
  | [] => []
  | k :: keys => if k ∈ seen then i :: scan seen (i + 1) keys else scan (k :: seen) (i + 1) keys

/-- The positions of the keys that stand before as well. -/
def repeats (keys : List κ) : List Nat := scan [] 0 keys

/-- The first position of every key. -/
def firsts (keys : List κ) : List Nat := (List.range keys.length).filter fun i => i ∉ repeats keys

theorem mem_scan {seen keys : List κ} {i n : Nat} : n ∈ scan seen i keys ↔
    ∃ m k, n = i + m ∧ keys[m]? = some k ∧ (k ∈ seen ∨ ∃ l < m, keys[l]? = some k) := by
  induction keys generalizing seen i with
  | nil => simp [scan]
  | cons a keys ih =>
    -- what the rest of the loop finds, in positions of the whole list
    have hrest : ∀ seen', n ∈ scan seen' (i + 1) keys ↔ ∃ m k, n = i + (m + 1) ∧ (a :: keys)[m + 1]? = some k ∧
        (k ∈ seen' ∨ ∃ l < m, (a :: keys)[l + 1]? = some k) := fun seen' => by
      rw [ih]
      simp only [List.getElem?_cons_succ, Nat.add_assoc, Nat.add_comm 1]
    by_cases ha : a ∈ seen
    · rw [scan, if_pos ha, List.mem_cons, hrest]
      constructor
      · rintro (rfl | ⟨m, k, hn, hk, h⟩)
        · exact ⟨0, a, rfl, rfl, Or.inl ha⟩
        · refine ⟨m + 1, k, hn, hk, h.imp_right ?_⟩
          rintro ⟨l, hl, hlk⟩
          exact ⟨l + 1, by omega, hlk⟩
      · rintro ⟨m, k, hn, hk, h⟩
        rcases m with _ | m
        · exact Or.inl hn
        · refine Or.inr ⟨m, k, hn, hk, ?_⟩
          rcases h with h | ⟨l, hl, hlk⟩
          · exact Or.inl h
          · rcases l with _ | l
            · exact Or.inl (Option.some.inj hlk ▸ ha)
            · exact Or.inr ⟨l, by omega, hlk⟩
    · rw [scan, if_neg ha, hrest]
      constructor
      · rintro ⟨m, k, hn, hk, h⟩
        refine ⟨m + 1, k, hn, hk, ?_⟩
        rcases h with h | ⟨l, hl, hlk⟩
        · rcases List.mem_cons.mp h with rfl | h
          · exact Or.inr ⟨0, by omega, rfl⟩
          · exact Or.inl h
        · exact Or.inr ⟨l + 1, by omega, hlk⟩
      · rintro ⟨m, k, hn, hk, h⟩
        rcases m with _ | m
        · obtain rfl := Option.some.inj hk
          rcases h with h | ⟨l, hl, -⟩
          · exact absurd h ha
          · exact absurd hl (Nat.not_lt_zero _)
        · refine ⟨m, k, hn, hk, ?_⟩
          rcases h with h | ⟨l, hl, hlk⟩
          · exact Or.inl (List.mem_cons_of_mem _ h)
          · rcases l with _ | l
            · exact Or.inl (Option.some.inj hlk ▸ List.mem_cons_self)
            · exact Or.inr ⟨l, by omega, hlk⟩

theorem mem_repeats {keys : List κ} {n : Nat} :
    n ∈ repeats keys ↔ ∃ k, keys[n]? = some k ∧ ∃ l < n, keys[l]? = some k := by
  unfold repeats
  rw [mem_scan]
  constructor
  · rintro ⟨m, k, hn, hk, h⟩
    obtain rfl : n = m := by omega
    exact ⟨k, hk, h.resolve_left List.not_mem_nil⟩
  · rintro ⟨k, hk, h⟩
    exact ⟨n, k, (Nat.zero_add n).symm, hk, Or.inr h⟩

theorem mem_firsts {keys : List κ} {n : Nat} :
    n ∈ firsts keys ↔ ∃ k, keys[n]? = some k ∧ ∀ l < n, keys[l]? ≠ some k := by
  unfold firsts
  rw [List.mem_filter, List.mem_range, decide_eq_true_iff, mem_repeats]
  constructor
  · rintro ⟨hlt, h⟩
    refine ⟨keys[n], List.getElem?_eq_getElem hlt, fun l hl hlk => h ⟨keys[n], List.getElem?_eq_getElem hlt, l, hl, hlk⟩⟩
  · rintro ⟨k, hk, h⟩
    refine ⟨(List.getElem?_eq_some_iff.mp hk).1, ?_⟩
    rintro ⟨k', hk', l, hl, hlk⟩
    exact h l hl (hlk.trans (hk'.symm.trans hk))

theorem firsts_pairwise (keys : List κ) : (firsts keys).Pairwise (· < ·) :=
  List.pairwise_lt_range.filter _

/-- No two first positions have one key. -/
theorem firsts_ne (keys : List κ) : (firsts keys).Pairwise fun i j => keys[i]? ≠ keys[j]? := by
  refine (firsts_pairwise keys).imp_of_mem fun {i j} _ hj hlt heq => ?_
  obtain ⟨k, hk, hfirst⟩ := mem_firsts.mp hj
  exact hfirst i hlt (heq.trans hk)

/-- Keys that are all different have no repeats. -/
theorem repeats_nodup {keys : List κ} (h : keys.Nodup) : repeats keys = [] := by
  refine List.eq_nil_iff_forall_not_mem.mpr fun n hn => ?_
  obtain ⟨k, hk, l, hl, hlk⟩ := mem_repeats.mp hn
  obtain ⟨hlen, -⟩ := List.getElem?_eq_some_iff.mp hlk
  exact absurd ((List.getElem?_inj hlen h).mp (hlk.trans hk.symm)) (Nat.ne_of_lt hl)

/-- The keys at the first positions are all different. -/
theorem nodup_at_firsts {keys picked : List κ} (h : picked.map some = (firsts keys).map fun i => keys[i]?) :
    picked.Nodup := by
  have hpair : (picked.map some).Pairwise (· ≠ ·) := by
    rw [h, List.pairwise_map]
    exact firsts_ne keys
  rw [List.pairwise_map] at hpair
  exact hpair.imp fun hne heq => hne (congrArg some heq)

theorem repeats_congr {κ' : Type*} [DecidableEq κ'] {keys : List κ} {keys' : List κ'} (hlen : keys.length = keys'.length)
    (h : ∀ i < keys.length, ∀ j < keys.length, keys[i]? = keys[j]? ↔ keys'[i]? = keys'[j]?) :
    ∀ n, n ∈ repeats keys ↔ n ∈ repeats keys' := by
  have hiff : ∀ n, n < keys.length → ((∃ k, keys[n]? = some k ∧ ∃ l < n, keys[l]? = some k) ↔
      ∃ k, keys'[n]? = some k ∧ ∃ l < n, keys'[l]? = some k) := by
    intro n hn
    have hn' : n < keys'.length := hlen ▸ hn
    constructor
    · rintro ⟨k, hk, l, hl, hlk⟩
      refine ⟨keys'[n], List.getElem?_eq_getElem hn', l, hl, ?_⟩
      rw [(h l (Nat.lt_trans hl hn) n hn).mp (hlk.trans hk.symm), List.getElem?_eq_getElem hn']
    · rintro ⟨k, hk, l, hl, hlk⟩
      refine ⟨keys[n], List.getElem?_eq_getElem hn, l, hl, ?_⟩
      rw [(h l (Nat.lt_trans hl hn) n hn).mpr (hlk.trans hk.symm), List.getElem?_eq_getElem hn]
  intro n
  rw [mem_repeats, mem_repeats]
  by_cases hn : n < keys.length
  · exact hiff n hn
  · have hnone : keys[n]? = none := List.getElem?_eq_none (Nat.le_of_not_lt hn)
    have hnone' : keys'[n]? = none := List.getElem?_eq_none (hlen ▸ Nat.le_of_not_lt hn)
    rw [hnone, hnone']
    constructor <;> rintro ⟨k, hk, -⟩ <;> cases hk

/-! ## Keys that are compared -/

section By
variable {κ : Type*} (same : κ → κ → Bool)

/-- The positions from `i` on whose key is the same as one that has been seen. -/
def scanBy (seen : List κ) (i : Nat) : List κ → List Nat
  | [] => []
  | k :: keys => if seen.any (same k) then i :: scanBy seen (i + 1) keys else scanBy (k :: seen) (i + 1) keys

variable {same}

/-- Of keys that are the same only one is kept, which stands for the others. -/
theorem mem_scanBy {P : κ → Prop}
    (trans : ∀ {a b c}, P a → P b → P c → same a b = true → same b c = true → same a c = true)
    {seen keys : List κ} (hseen : ∀ k ∈ seen, P k) (hkeys : ∀ k ∈ keys, P k) {i n : Nat} :
    n ∈ scanBy same seen i keys ↔ ∃ m k, n = i + m ∧ keys[m]? = some k ∧
      ((∃ s ∈ seen, same k s = true) ∨ ∃ l < m, ∃ k', keys[l]? = some k' ∧ same k k' = true) := by
  induction keys generalizing seen i with
  | nil => simp [scanBy]
  | cons a keys ih =>
    obtain ⟨ha, hkeys⟩ := List.forall_mem_cons.mp hkeys
    have hfound : (seen.any (same a)) = true ↔ ∃ s ∈ seen, same a s = true := List.any_eq_true
    by_cases hany : seen.any (same a) = true
    · rw [scanBy, if_pos hany, List.mem_cons, ih hseen hkeys]
      obtain ⟨s, hs, hsame⟩ := hfound.mp hany
      constructor
      · rintro (rfl | ⟨m, k, hn, hk, h⟩)
        · exact ⟨0, a, rfl, rfl, Or.inl ⟨s, hs, hsame⟩⟩
        · refine ⟨m + 1, k, by omega, hk, h.imp_right ?_⟩
          rintro ⟨l, hl, k', hk', h⟩
          exact ⟨l + 1, by omega, k', hk', h⟩
      · rintro ⟨m, k, hn, hk, h⟩
        rcases m with _ | m
        · exact Or.inl hn
        · refine Or.inr ⟨m, k, by omega, hk, ?_⟩
          rcases h with h | ⟨l, hl, k', hk', h⟩
          · exact Or.inl h
          · rcases l with _ | l
            · obtain rfl := Option.some.inj hk'
              have hkP := hkeys k (List.mem_of_getElem? hk)
              exact Or.inl ⟨s, hs, trans hkP ha (hseen s hs) h hsame⟩
            · exact Or.inr ⟨l, by omega, k', hk', h⟩
    · rw [scanBy, if_neg hany, ih (List.forall_mem_cons.mpr ⟨ha, hseen⟩) hkeys]
      constructor
      · rintro ⟨m, k, hn, hk, h⟩
        refine ⟨m + 1, k, by omega, hk, ?_⟩
        rcases h with ⟨s, hs, h⟩ | ⟨l, hl, k', hk', h⟩
        · rcases List.mem_cons.mp hs with rfl | hs
          · exact Or.inr ⟨0, by omega, s, rfl, h⟩
          · exact Or.inl ⟨s, hs, h⟩
        · exact Or.inr ⟨l + 1, by omega, k', hk', h⟩
      · rintro ⟨m, k, hn, hk, h⟩
        rcases m with _ | m
        · obtain rfl := Option.some.inj hk
          rcases h with h | ⟨l, hl, -⟩
          · exact absurd (hfound.mpr h) hany
          · exact absurd hl (Nat.not_lt_zero _)
        · refine ⟨m, k, by omega, hk, ?_⟩
          rcases h with ⟨s, hs, h⟩ | ⟨l, hl, k', hk', h⟩
          · exact Or.inl ⟨s, List.mem_cons_of_mem _ hs, h⟩
          · rcases l with _ | l
            · obtain rfl := Option.some.inj hk'
              exact Or.inl ⟨a, List.mem_cons_self, h⟩
            · exact Or.inr ⟨l, by omega, k', hk', h⟩

/-- The positions depend on which keys are the same, and on nothing else. -/
theorem scanBy_congr {ι : Type*} {same' : ι → ι → Bool} {seen keys : List (κ × ι)}
    (h : ∀ p ∈ keys, ∀ q ∈ seen ++ keys, same p.1 q.1 = same' p.2 q.2) (i : Nat) :
    scanBy same (seen.map Prod.fst) i (keys.map Prod.fst) = scanBy same' (seen.map Prod.snd) i (keys.map Prod.snd) := by
  induction keys generalizing seen i with
  | nil => rfl
  | cons p keys ih =>
    have hany : (seen.map Prod.fst).any (same p.1) = (seen.map Prod.snd).any (same' p.2) := by
      have hq : ∀ q ∈ seen, same p.1 q.1 = same' p.2 q.2 := fun q hq =>
        h p List.mem_cons_self q (List.mem_append_left _ hq)
      rw [Bool.eq_iff_iff, List.any_map, List.any_map, List.any_eq_true, List.any_eq_true]
      exact exists_congr fun q => and_congr_right fun hmem => Bool.eq_iff_iff.mp (hq q hmem)
    have hskip := @ih seen (fun p' hp q hq => h p' (List.mem_cons_of_mem _ hp) q (by
      rcases List.mem_append.mp hq with hq | hq
      · exact List.mem_append_left _ hq
      · exact List.mem_append_right _ (List.mem_cons_of_mem _ hq))) (i + 1)
    have hkeep := @ih (p :: seen) (fun p' hp q hq => h p' (List.mem_cons_of_mem _ hp) q (by
      rcases List.mem_append.mp hq with hq | hq
      · rcases List.mem_cons.mp hq with rfl | hq
        · exact List.mem_append_right _ List.mem_cons_self
        · exact List.mem_append_left _ hq
      · exact List.mem_append_right _ (List.mem_cons_of_mem _ hq))) (i + 1)
    rw [List.map_cons, List.map_cons, scanBy, scanBy, hany, hskip]
    rw [List.map_cons, List.map_cons] at hkeep
    rw [hkeep]

end By

end Repeats
