import Mathlib.Order.Defs.LinearOrder
import Mathlib.Data.List.Pairwise
import Mathlib.Order.Lattice

/-! # Finite maps as strictly sorted entry lists

A map is the list of its entries in strictly increasing key order, so two maps with the same lookups
are equal and iterating a map visits every key once, in order. -/

universe u v

/-- A finite map from `κ` to `ν`: its entries, strictly increasing by key. -/
structure SortedMap (κ : Type u) (ν : Type v) [LinearOrder κ] where
  entries : List (κ × ν)
  sorted : entries.Pairwise (fun a b => a.1 < b.1)
deriving DecidableEq

namespace SortedMap
variable {κ : Type u} {ν : Type v} [LinearOrder κ]

/-! ## Entry lists -/

/-- Put `(k, v)` at its place, over an entry of the same key. -/
def insertEntry (k : κ) (v : ν) : List (κ × ν) → List (κ × ν)
  | [] => [(k, v)]
  | e :: es =>
    if k < e.1 then (k, v) :: e :: es
    else if k = e.1 then (k, v) :: es
    else e :: insertEntry k v es

theorem mem_insertEntry {k : κ} {v : ν} {es : List (κ × ν)} {e : κ × ν} (h : e ∈ insertEntry k v es) :
    e = (k, v) ∨ e ∈ es := by
  induction es with
  | nil => simpa [insertEntry] using h
  | cons a es ih =>
    simp only [insertEntry] at h
    split at h
    · simpa using h
    · split at h
      · rcases List.mem_cons.mp h with h | h
        · exact Or.inl h
        · exact Or.inr (List.mem_cons_of_mem _ h)
      · rcases List.mem_cons.mp h with h | h
        · exact Or.inr (h ▸ List.mem_cons_self)
        · exact (ih h).imp_right (List.mem_cons_of_mem _)

theorem sorted_insertEntry (k : κ) (v : ν) {es : List (κ × ν)}
    (h : es.Pairwise (fun a b => a.1 < b.1)) :
    (insertEntry k v es).Pairwise (fun a b => a.1 < b.1) := by
  induction es with
  | nil => simp [insertEntry]
  | cons a es ih =>
    have ha := List.pairwise_cons.mp h
    simp only [insertEntry]
    split
    · next hlt =>
      refine List.pairwise_cons.mpr ⟨?_, h⟩
      intro b hb
      rcases List.mem_cons.mp hb with rfl | hb
      · exact hlt
      · exact hlt.trans (ha.1 b hb)
    · next hge =>
      split
      · next heq => exact List.pairwise_cons.mpr ⟨fun b hb => heq ▸ ha.1 b hb, ha.2⟩
      · next hne =>
        refine List.pairwise_cons.mpr ⟨?_, ih ha.2⟩
        intro b hb
        rcases mem_insertEntry hb with rfl | hb
        · exact lt_of_le_of_ne (not_lt.mp hge) (Ne.symm hne)
        · exact ha.1 b hb

theorem lookup_cons (x : κ) (e : κ × ν) (es : List (κ × ν)) :
    (e :: es).lookup x = if x = e.1 then some e.2 else es.lookup x := by
  rw [List.lookup_cons]
  by_cases hx : x = e.1
  · simp [hx]
  · rw [if_neg hx, beq_false_of_ne hx]

theorem lookup_insertEntry (k : κ) (v : ν) (es : List (κ × ν)) (x : κ) :
    (insertEntry k v es).lookup x = if x = k then some v else es.lookup x := by
  induction es with
  | nil => rw [insertEntry, lookup_cons]
  | cons a es ih =>
    simp only [insertEntry]
    split
    · rw [lookup_cons]
    · split
      · next heq => rw [lookup_cons, lookup_cons, ← heq]; split <;> rfl
      · next hne =>
        rw [lookup_cons, lookup_cons, ih]
        by_cases hx : x = a.1
        · rw [if_pos hx, if_neg (fun h => hne (h.symm.trans hx)), if_pos hx]
        · rw [if_neg hx, if_neg hx]

theorem lookup_eq_some_iff {es : List (κ × ν)} (h : es.Pairwise (fun a b => a.1 < b.1)) (k : κ) (v : ν) :
    es.lookup k = some v ↔ (k, v) ∈ es := by
  induction es with
  | nil => simp
  | cons a es ih =>
    have ha := List.pairwise_cons.mp h
    rw [lookup_cons, List.mem_cons]
    by_cases hk : k = a.1
    · subst hk
      have hnot : (a.1, v) ∉ es := fun hm => lt_irrefl a.1 (ha.1 (a.1, v) hm)
      simp only [if_true, Option.some.injEq, hnot, or_false]
      constructor
      · rintro rfl; rfl
      · intro he; exact (congrArg Prod.snd he).symm
    · have hne : (k, v) ≠ a := fun he => hk (congrArg Prod.fst he)
      simp [hk, ih ha.2, hne]

/-- Two sorted entry lists with the same lookups are the same list. -/
theorem entries_ext {es fs : List (κ × ν)} (he : es.Pairwise (fun a b => a.1 < b.1))
    (hf : fs.Pairwise (fun a b => a.1 < b.1)) (h : ∀ k, es.lookup k = fs.lookup k) : es = fs := by
  have hmem : ∀ e, e ∈ es ↔ e ∈ fs := fun e => by
    rw [← lookup_eq_some_iff he e.1 e.2, ← lookup_eq_some_iff hf e.1 e.2, h]
  have nodup : ∀ {gs : List (κ × ν)}, gs.Pairwise (fun a b => a.1 < b.1) → gs.Nodup := fun hg =>
    hg.imp fun {a b} hab (heq : a = b) => lt_irrefl b.1 (heq ▸ hab)
  have hperm : es.Perm fs := (List.perm_ext_iff_of_nodup (nodup he) (nodup hf)).mpr hmem
  exact hperm.eq_of_pairwise (fun a b _ _ hab hba => absurd (hab.trans hba) (lt_irrefl _)) he hf

/-! ## The map operations -/

def empty : SortedMap κ ν := ⟨[], List.Pairwise.nil⟩

instance : EmptyCollection (SortedMap κ ν) := ⟨empty⟩
instance : Inhabited (SortedMap κ ν) := ⟨∅⟩

def find? (m : SortedMap κ ν) (k : κ) : Option ν := m.entries.lookup k

def contains (m : SortedMap κ ν) (k : κ) : Bool := (m.find? k).isSome

def insert (m : SortedMap κ ν) (k : κ) (v : ν) : SortedMap κ ν :=
  ⟨insertEntry k v m.entries, sorted_insertEntry k v m.sorted⟩

def erase (m : SortedMap κ ν) (k : κ) : SortedMap κ ν :=
  ⟨m.entries.filter fun e => e.1 ≠ k, m.sorted.sublist List.filter_sublist⟩

def keys (m : SortedMap κ ν) : List κ := m.entries.map Prod.fst

/-- Insert the entries one by one: of several entries with one key the last one stays. -/
def ofList (es : List (κ × ν)) : SortedMap κ ν := es.foldl (fun m e => m.insert e.1 e.2) ∅

@[simp] theorem find?_empty (k : κ) : (∅ : SortedMap κ ν).find? k = none := rfl

theorem find?_insert (m : SortedMap κ ν) (k : κ) (v : ν) (x : κ) :
    (m.insert k v).find? x = if x = k then some v else m.find? x :=
  lookup_insertEntry k v m.entries x

@[simp] theorem find?_insert_self (m : SortedMap κ ν) (k : κ) (v : ν) : (m.insert k v).find? k = some v := by
  simp [find?_insert]

theorem find?_insert_of_ne (m : SortedMap κ ν) {k x : κ} (v : ν) (h : x ≠ k) :
    (m.insert k v).find? x = m.find? x := by
  simp [find?_insert, h]

theorem lookup_filter_ne (k : κ) (es : List (κ × ν)) (x : κ) :
    (es.filter fun e => e.1 ≠ k).lookup x = if x = k then none else es.lookup x := by
  induction es with
  | nil => simp
  | cons e es ih =>
    rw [List.filter_cons, lookup_cons]
    split
    · next h =>
      have hne : e.1 ≠ k := of_decide_eq_true h
      rw [lookup_cons, ih]
      by_cases hx : x = k
      · rw [if_neg fun he => hne (he.symm.trans hx), if_pos hx, if_pos hx]
      · rw [if_neg hx, if_neg hx]
    · next h =>
      have heq : e.1 = k := by simpa using h
      rw [ih]
      by_cases hx : x = k
      · rw [if_pos hx, if_pos hx]
      · rw [if_neg hx, if_neg hx, if_neg fun he => hx (he.trans heq)]

theorem find?_erase (m : SortedMap κ ν) (k : κ) (x : κ) :
    (m.erase k).find? x = if x = k then none else m.find? x :=
  lookup_filter_ne k m.entries x

theorem mem_entries {m : SortedMap κ ν} {k : κ} {v : ν} : (k, v) ∈ m.entries ↔ m.find? k = some v :=
  (lookup_eq_some_iff m.sorted k v).symm

theorem contains_iff {m : SortedMap κ ν} {k : κ} : m.contains k = true ↔ ∃ v, m.find? k = some v := by
  simp [contains, Option.isSome_iff_exists]

theorem mem_keys {m : SortedMap κ ν} {k : κ} : k ∈ m.keys ↔ m.contains k = true := by
  rw [contains_iff, keys, List.mem_map]
  constructor
  · rintro ⟨e, he, rfl⟩; exact ⟨e.2, mem_entries.mp he⟩
  · rintro ⟨v, hv⟩; exact ⟨(k, v), mem_entries.mpr hv, rfl⟩

theorem keys_nodup (m : SortedMap κ ν) : m.keys.Nodup := by
  rw [keys, List.nodup_iff_pairwise_ne, List.pairwise_map]
  exact m.sorted.imp fun h => ne_of_lt h

@[ext] theorem ext_find? {m₁ m₂ : SortedMap κ ν} (h : ∀ k, m₁.find? k = m₂.find? k) : m₁ = m₂ := by
  obtain ⟨es, he⟩ := m₁
  obtain ⟨fs, hf⟩ := m₂
  have : es = fs := entries_ext he hf h
  subst this; rfl

theorem find?_foldl_erase (keys : List κ) (m : SortedMap κ ν) (k : κ) :
    (keys.foldl erase m).find? k = if k ∈ keys then none else m.find? k := by
  induction keys generalizing m with
  | nil => simp
  | cons key rest ih =>
    rw [List.foldl_cons, ih, find?_erase]
    by_cases hk : k ∈ rest
    · rw [if_pos hk, if_pos (List.mem_cons_of_mem _ hk)]
    · by_cases he : k = key
      · rw [if_neg hk, if_pos he, if_pos (he ▸ List.mem_cons_self)]
      · rw [if_neg hk, if_neg he, if_neg (by simp [he, hk])]

/-- A map without its keys is empty. -/
theorem foldl_erase_keys (m : SortedMap κ ν) : m.keys.foldl erase m = ∅ := by
  refine ext_find? fun k => ?_
  rw [find?_foldl_erase]
  split
  · rfl
  · next hk =>
    rw [mem_keys, contains_iff] at hk
    exact Option.eq_none_iff_forall_ne_some.mpr fun v hv => hk ⟨v, hv⟩

/-! ## Inserting many -/

theorem find?_foldl_insert {es : List (κ × ν)} (h : es.Pairwise (fun a b => a.1 < b.1)) (m : SortedMap κ ν) (k : κ) :
    (es.foldl (fun m e => m.insert e.1 e.2) m).find? k = (es.lookup k).or (m.find? k) := by
  induction es generalizing m with
  | nil => rfl
  | cons e es ih =>
    have he := List.pairwise_cons.mp h
    rw [List.foldl_cons, ih he.2, find?_insert, lookup_cons]
    by_cases hk : k = e.1
    · have hnone : es.lookup k = none := by
        rw [Option.eq_none_iff_forall_ne_some]
        intro v hv
        exact lt_irrefl k (hk ▸ he.1 (k, v) ((lookup_eq_some_iff he.2 k v).mp hv))
      rw [if_pos hk, if_pos hk, hnone]
      rfl
    · rw [if_neg hk, if_neg hk]

theorem ofList_entries (m : SortedMap κ ν) : ofList m.entries = m := by
  refine ext_find? fun k => ?_
  rw [ofList, find?_foldl_insert m.sorted, find?_empty, Option.or_none]
  rfl

theorem contains_foldl_insert {es : List (κ × ν)} {m : SortedMap κ ν} {k : κ} :
    (es.foldl (fun m e => m.insert e.1 e.2) m).contains k = true ↔ m.contains k = true ∨ k ∈ es.map Prod.fst := by
  induction es generalizing m with
  | nil => exact (or_iff_left List.not_mem_nil).symm
  | cons e es ih =>
    have hinsert : (m.insert e.1 e.2).contains k = true ↔ k = e.1 ∨ m.contains k = true := by
      unfold contains
      rw [find?_insert]
      split
      · next h => exact iff_of_true rfl (.inl h)
      · next h => exact (or_iff_right h).symm
    rw [List.foldl_cons, ih, hinsert, List.map_cons, List.mem_cons, or_assoc, or_left_comm]

theorem contains_ofList {es : List (κ × ν)} {k : κ} : (ofList es).contains k = true ↔ k ∈ es.map Prod.fst :=
  contains_foldl_insert.trans (or_iff_right Bool.false_ne_true)

/-! ## Mapping the values -/

/-- Apply `g` to every value. -/
def mapValues {μ : Type*} (g : ν → μ) (m : SortedMap κ ν) : SortedMap κ μ :=
  ⟨m.entries.map fun e => (e.1, g e.2), by
    rw [List.pairwise_map]
    exact m.sorted⟩

@[simp] theorem find?_mapValues {μ : Type*} (g : ν → μ) (m : SortedMap κ ν) (k : κ) :
    (m.mapValues g).find? k = (m.find? k).map g := by
  obtain ⟨es, he⟩ := m
  simp only [mapValues, find?]
  clear he
  induction es with
  | nil => rfl
  | cons e es ih =>
    rw [List.map_cons, lookup_cons, lookup_cons, ih]
    by_cases hk : k = e.1
    · simp [hk]
    · simp [hk]

/-! ## Visiting every value

A loop over the keys, in an order that need not be the map's own, which replaces each value and hands a
scratch value on. -/

/-- Replace the value of each key in turn by what `g` makes of it and of the scratch value. -/
def sweep {τ : Type*} (g : κ → ν → τ → ν × τ) (keys : List κ) (m : SortedMap κ ν) (t : τ) : SortedMap κ ν × τ :=
  keys.foldl (fun s k => match s.1.find? k with
    | some v => (s.1.insert k (g k v s.2).1, (g k v s.2).2)
    | none => s) (m, t)

/-- Each visited value becomes what a property of the scratch value says it becomes. -/
theorem find?_sweep {τ : Type*} {g : κ → ν → τ → ν × τ} {h : κ → ν → ν} {Fit : τ → Prop} {keys : List κ}
    {m : SortedMap κ ν} {t : τ} (hkeys : keys.Nodup) (ht : Fit t)
    (hg : ∀ k ∈ keys, ∀ v, m.find? k = some v → ∀ t, Fit t → (g k v t).1 = h k v ∧ Fit (g k v t).2) (k : κ) :
    (sweep g keys m t).1.find? k = if k ∈ keys then (m.find? k).map (h k) else m.find? k := by
  unfold sweep
  induction keys generalizing m t with
  | nil => simp
  | cons a keys ih =>
    obtain ⟨ha, hkeys⟩ := List.nodup_cons.mp hkeys
    rw [List.foldl_cons]
    cases hv : m.find? a with
    | none =>
      dsimp only
      rw [ih hkeys ht fun b hb => hg b (List.mem_cons_of_mem _ hb)]
      by_cases hk : k = a
      · subst hk
        simp [ha, hv]
      · simp [hk]
    | some v =>
      dsimp only
      obtain ⟨hval, hfit⟩ := hg a List.mem_cons_self v hv t ht
      rw [hval, ih hkeys hfit]
      · by_cases hk : k = a
        · subst hk
          simp [ha, hv]
        · simp [hk, find?_insert_of_ne]
      · intro b hb w hw
        have hne : b ≠ a := fun heq => ha (heq ▸ hb)
        rw [find?_insert_of_ne _ _ hne] at hw
        exact hg b (List.mem_cons_of_mem _ hb) w hw

/-- A visit of every key replaces every value. -/
theorem find?_sweep_all {τ : Type*} {g : κ → ν → τ → ν × τ} {h : κ → ν → ν} {Fit : τ → Prop} {keys : List κ}
    {m : SortedMap κ ν} {t : τ} (hkeys : keys.Perm m.keys) (ht : Fit t)
    (hg : ∀ k v, m.find? k = some v → ∀ t, Fit t → (g k v t).1 = h k v ∧ Fit (g k v t).2) (k : κ) :
    (sweep g keys m t).1.find? k = (m.find? k).map (h k) := by
  rw [find?_sweep (hkeys.nodup_iff.mpr m.keys_nodup) ht fun k _ => hg k]
  split
  · rfl
  · next hk =>
    have hnone : m.find? k = none := by
      rw [Option.eq_none_iff_forall_ne_some]
      intro v hv
      exact hk (hkeys.mem_iff.mpr (mem_keys.mpr (contains_iff.mpr ⟨v, hv⟩)))
    rw [hnone]
    rfl

end SortedMap
