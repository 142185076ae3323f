import Pineapple.Dedup
import Pineapple.JavaText
import Mathlib.Data.List.Perm.Subperm

/-! # Comparisons in Java (`MergeDedup`, `FilterCondition`)

Deduplication keeps values in a hash set and so compares them with `equals`, which tells the classes of numbers apart;
filtering compares their texts. Both give a number its float64 first, but only where the number is the whole value. -/

namespace Pineapple.JavaCompare

open Dedup (canonical)
open GoFormat (sprint)

/-! ## Equal values -/

mutual
/-- Values of one shape whose numbers are related; every entry of a map is among those of the other. -/
def sameBy (r : JavaNumber → JavaNumber → Bool) : JavaValue → JavaValue → Bool
  | .null, .null => true
  | .bool a, .bool b => a = b
  | .number a, .number b => r a b
  | .string s, .string t => s = t
  | .list xs, .list ys => sameElements r xs ys
  | .map es, .map fs => es.length = fs.length && sameEntries r es fs
  | _, _ => false

def sameElements (r : JavaNumber → JavaNumber → Bool) : List JavaValue → List JavaValue → Bool
  | [], [] => true
  | x :: xs, y :: ys => sameBy r x y && sameElements r xs ys
  | _, _ => false

def sameEntries (r : JavaNumber → JavaNumber → Bool) : List (Units × JavaValue) → List (Units × JavaValue) → Bool
  | [], _ => true
  | (k, v) :: es, fs => (fs.any fun e => e.1 = k && sameBy r v e.2) && sameEntries r es fs
end

/-- `Objects.equals`: a number equals those of its class with its value. -/
def javaEquals : JavaValue → JavaValue → Bool := sameBy fun a b => a = b

/-- The same float64; the two zeros are one number. -/
def sameNumber (a b : JavaNumber) : Bool :=
  a.doubleValue = b.doubleValue || (isZeroDouble a.doubleValue && isZeroDouble b.doubleValue)

/-- Equality of JSON values, whatever the classes of their numbers. -/
def jsonEqual : JavaValue → JavaValue → Bool := sameBy sameNumber

/-- A map has each key once. -/
inductive Stored : JavaValue → Prop
  | null : Stored .null
  | bool (b : Bool) : Stored (.bool b)
  | number (n : JavaNumber) : Stored (.number n)
  | string (s : Units) : Stored (.string s)
  | list {xs : List JavaValue} : (∀ x ∈ xs, Stored x) → Stored (.list xs)
  | map {es : List (Units × JavaValue)} : (es.map Prod.fst).Nodup → (∀ e ∈ es, Stored e.2) → Stored (.map es)

/-- The values of an item field. -/
abbrev Column := List {v : JavaValue // Stored v}

def Column.values (column : Column) : List JavaValue := column.map Subtype.val

/-! ## The operators -/

/-- `normalizeKey`. -/
def normalizeKey : JavaValue → JavaValue
  | .number n => .number (.double (canonical n.doubleValue))
  | v => v

/-- The items that `MergeDedup.execute` removes. -/
def mergeDedup (column : List JavaValue) : List Nat := Repeats.scanBy javaEquals [] 0 (column.map normalizeKey)

/-- `normalizeForCompare`. -/
def normalizeForCompare : JavaValue → JavaValue
  | .number n => .number (.double n.doubleValue)
  | v => v

/-- The comparison of `FilterCondition.execute`. -/
def isWanted (value v : JavaValue) : Bool := sprint (normalizeForCompare v) = sprint (normalizeForCompare value)

/-- The items that it removes. -/
def filterCondition (value : JavaValue) (column : List JavaValue) : List Nat :=
  (List.range column.length).filter fun i => column[i]?.any (isWanted value)

/-! ## What the comparisons are for -/

/-- Equal frames and equal configured values lead to the same removals, and values are treated as equal exactly if they
are equal. -/
structure ComparesValues (xs ys : Column) (value value' : JavaValue) : Prop where
  dedup : mergeDedup xs.values = mergeDedup ys.values
  filter : filterCondition value xs.values = filterCondition value' ys.values
  duplicates : ∀ u ∈ xs.values, ∀ v ∈ xs.values, javaEquals (normalizeKey u) (normalizeKey v) = jsonEqual u v
  wanted : ∀ v ∈ xs.values, isWanted value v = jsonEqual value v

mutual
/-- The numbers of a value. -/
def numbers : JavaValue → List JavaNumber
  | .number n => [n]
  | .list xs => elementNumbers xs
  | .map es => entryNumbers es
  | _ => []

def elementNumbers : List JavaValue → List JavaNumber
  | [] => []
  | x :: xs => numbers x ++ elementNumbers xs

def entryNumbers : List (Units × JavaValue) → List JavaNumber
  | [] => []
  | (_, v) :: es => numbers v ++ entryNumbers es
end

/-- The numbers inside an array or an object. -/
def innerNumbers : JavaValue → List JavaNumber
  | .number _ => []
  | v => numbers v

/-- Inside arrays and objects equal numbers have one class, and zeros one sign. -/
def Uniform (column : List JavaValue) : Prop :=
  ∀ u ∈ column, ∀ v ∈ column, ∀ a ∈ innerNumbers u, ∀ b ∈ innerNumbers v, sameNumber a b = true → a = b

/-- The same value, but for the class of a number that is the whole value. -/
inductive Reclassed : JavaValue → JavaValue → Prop
  | same (v : JavaValue) : Reclassed v v
  | number {a b : JavaNumber} : a.doubleValue = b.doubleValue → Reclassed (.number a) (.number b)

/-- Two nulls, booleans, numbers or strings. -/
inductive SameKind : JavaValue → JavaValue → Prop
  | null : SameKind .null .null
  | bool (a b : Bool) : SameKind (.bool a) (.bool b)
  | number (a b : JavaNumber) : SameKind (.number a) (.number b)
  | string (s t : Units) : SameKind (.string s) (.string t)

/-- What the operators do by design: `merge_dedup` removes the items that equal one before them, whatever the classes of
their numbers; `filter_condition` removes those that have the text of the configured value, where a number has the text
of its float64. -/
structure ComparesByDesign (xs ys : Column) (value value' : JavaValue) : Prop where
  dedup : mergeDedup xs.values = mergeDedup ys.values
  removed : ∀ i, i ∈ mergeDedup xs.values ↔
    ∃ v, xs.values[i]? = some v ∧ ∃ j < i, ∃ u, xs.values[j]? = some u ∧ jsonEqual v u = true
  filter : List.Forall₂ Reclassed xs.values ys.values → Reclassed value value' →
    filterCondition value xs.values = filterCondition value' ys.values
  wanted : ∀ v ∈ xs.values, SameKind value v →
    (isWanted value v = true ↔ sameBy (fun a b => a.doubleValue = b.doubleValue) value v = true)

/-! ## Related numbers -/

section Same
variable {r r' : JavaNumber → JavaNumber → Bool}

attribute [local simp] sameBy sameElements sameEntries

theorem sameEntries_iff {es fs : List (Units × JavaValue)} :
    sameEntries r es fs = true ↔ ∀ e ∈ es, ∃ w, (e.1, w) ∈ fs ∧ sameBy r e.2 w = true := by
  induction es with
  | nil => simp
  | cons e es ih =>
    obtain ⟨k, v⟩ := e
    rw [sameEntries, Bool.and_eq_true, ih, List.forall_mem_cons]
    refine and_congr_left fun _ => ?_
    simp only [List.any_eq_true, Bool.and_eq_true, decide_eq_true_iff]
    constructor
    · rintro ⟨⟨k', w⟩, hmem, rfl, heq⟩
      exact ⟨w, hmem, heq⟩
    · rintro ⟨w, hmem, heq⟩
      exact ⟨(k, w), hmem, rfl, heq⟩

theorem sameElements_iff {xs ys : List JavaValue} :
    sameElements r xs ys = true ↔ List.Forall₂ (fun x y => sameBy r x y = true) xs ys := by
  induction xs generalizing ys with
  | nil =>
    cases ys with
    | nil => exact iff_of_true (by rw [sameElements]) .nil
    | cons y ys => exact iff_of_false (by simp) nofun
  | cons x xs ih =>
    cases ys with
    | nil => exact iff_of_false (by simp) nofun
    | cons y ys => rw [sameElements, Bool.and_eq_true, ih, List.forall₂_cons]

theorem sameBy_null {v : JavaValue} (h : sameBy r .null v = true) : v = .null := by
  cases v with
  | null => rfl
  | _ => simp at h

theorem sameBy_bool {b : Bool} {v : JavaValue} (h : sameBy r (.bool b) v = true) : v = .bool b := by
  cases v with
  | bool c => rw [of_decide_eq_true (show decide (b = c) = true by rwa [sameBy] at h)]
  | _ => simp at h

theorem sameBy_string {s : Units} {v : JavaValue} (h : sameBy r (.string s) v = true) : v = .string s := by
  cases v with
  | string t => rw [of_decide_eq_true (show decide (s = t) = true by rwa [sameBy] at h)]
  | _ => simp at h

theorem sameBy_number {a : JavaNumber} {v : JavaValue} (h : sameBy r (.number a) v = true) :
    ∃ b, v = .number b ∧ r a b = true := by
  cases v with
  | number b => exact ⟨b, rfl, by rwa [sameBy] at h⟩
  | _ => simp at h

theorem sameBy_list {xs : List JavaValue} {v : JavaValue} (h : sameBy r (.list xs) v = true) :
    ∃ ys, v = .list ys ∧ sameElements r xs ys = true := by
  cases v with
  | list ys => exact ⟨ys, rfl, by rwa [sameBy] at h⟩
  | _ => simp at h

theorem sameBy_map {es : List (Units × JavaValue)} {v : JavaValue} (h : sameBy r (.map es) v = true) :
    ∃ fs, v = .map fs ∧ es.length = fs.length ∧ sameEntries r es fs = true := by
  cases v with
  | map fs =>
    rw [sameBy, Bool.and_eq_true, decide_eq_true_iff] at h
    exact ⟨fs, rfl, h⟩
  | _ => simp at h

theorem entryNumbers_mem {es : List (Units × JavaValue)} {k : Units} {v : JavaValue} (h : (k, v) ∈ es) :
    ∀ a ∈ numbers v, a ∈ entryNumbers es := by
  intro a ha
  induction es with
  | nil => cases h
  | cons e es ih =>
    rw [entryNumbers]
    rcases List.mem_cons.mp h with rfl | h
    · exact List.mem_append_left _ ha
    · exact List.mem_append_right _ (ih h)

mutual
theorem sameBy_mono : ∀ (u : JavaValue) {v : JavaValue},
    (∀ a ∈ numbers u, ∀ b ∈ numbers v, r a b = true → r' a b = true) → sameBy r u v = true → sameBy r' u v = true
  | .null, v, _, h => by
    rw [sameBy_null h, sameBy]
  | .bool a, v, _, h => by
    rw [sameBy_bool h]
    simp
  | .number a, v, hr, h => by
    obtain ⟨b, rfl, hab⟩ := sameBy_number h
    rw [numbers, numbers] at hr
    rw [sameBy]
    exact hr a (List.mem_singleton_self a) b (List.mem_singleton_self b) hab
  | .string s, v, _, h => by
    rw [sameBy_string h]
    simp
  | .list xs, v, hr, h => by
    obtain ⟨ys, rfl, hxs⟩ := sameBy_list h
    rw [numbers, numbers] at hr
    rw [sameBy]
    exact sameElements_mono xs hr hxs
  | .map es, v, hr, h => by
    obtain ⟨fs, rfl, hlen, hes⟩ := sameBy_map h
    rw [numbers, numbers] at hr
    rw [sameBy, Bool.and_eq_true, decide_eq_true_iff]
    exact ⟨hlen, sameEntries_mono es hr hes⟩

theorem sameElements_mono : ∀ (xs : List JavaValue) {ys : List JavaValue},
    (∀ a ∈ elementNumbers xs, ∀ b ∈ elementNumbers ys, r a b = true → r' a b = true) →
      sameElements r xs ys = true → sameElements r' xs ys = true
  | [], [], _, _ => by rw [sameElements]
  | [], _ :: _, _, h => by simp at h
  | _ :: _, [], _, h => by simp at h
  | x :: xs, y :: ys, hr, h => by
    rw [sameElements, Bool.and_eq_true] at h ⊢
    rw [elementNumbers, elementNumbers] at hr
    exact ⟨sameBy_mono x (fun a ha b hb => hr a (List.mem_append_left _ ha) b (List.mem_append_left _ hb)) h.1,
      sameElements_mono xs (fun a ha b hb => hr a (List.mem_append_right _ ha) b (List.mem_append_right _ hb)) h.2⟩

theorem sameEntries_mono : ∀ (es : List (Units × JavaValue)) {fs : List (Units × JavaValue)},
    (∀ a ∈ entryNumbers es, ∀ b ∈ entryNumbers fs, r a b = true → r' a b = true) →
      sameEntries r es fs = true → sameEntries r' es fs = true
  | [], _, _, _ => by rw [sameEntries]
  | (k, v) :: es, fs, hr, h => by
    rw [sameEntries_iff, List.forall_mem_cons] at h
    obtain ⟨⟨w, hw, hsame⟩, hrest⟩ := h
    rw [entryNumbers] at hr
    have hv := sameBy_mono v (fun a ha b hb =>
      hr a (List.mem_append_left _ ha) b (entryNumbers_mem hw b hb)) hsame
    have hes := sameEntries_mono es (fun a ha b hb => hr a (List.mem_append_right _ ha) b hb) (sameEntries_iff.mpr hrest)
    exact sameEntries_iff.mpr (List.forall_mem_cons.mpr ⟨⟨w, hw, hv⟩, sameEntries_iff.mp hes⟩)
end

/-- The entries of two maps of one size are among each other. -/
theorem sameEntries_symm {es fs : List (Units × JavaValue)} (hes : (es.map Prod.fst).Nodup)
    (hfs : (fs.map Prod.fst).Nodup) (hlen : es.length = fs.length)
    (hsymm : ∀ e ∈ es, ∀ w, (e.1, w) ∈ fs → sameBy r e.2 w = true → sameBy r w e.2 = true)
    (h : sameEntries r es fs = true) : sameEntries r fs es = true := by
  rw [sameEntries_iff] at h ⊢
  have hsub : es.map Prod.fst ⊆ fs.map Prod.fst := by
    intro k hk
    obtain ⟨e, he, rfl⟩ := List.mem_map.mp hk
    obtain ⟨w, hw, -⟩ := h e he
    exact List.mem_map.mpr ⟨(e.1, w), hw, rfl⟩
  have hperm : (es.map Prod.fst).Perm (fs.map Prod.fst) :=
    (List.subperm_of_subset hes hsub).perm_of_length_le (by rw [List.length_map, List.length_map, hlen])
  intro f hf
  obtain ⟨⟨k, v⟩, he, hk⟩ := List.mem_map.mp (hperm.mem_iff.mpr (List.mem_map_of_mem hf))
  obtain ⟨w, hw, hsame⟩ := h (k, v) he
  have hfw : f = (k, w) := by
    refine List.inj_on_of_nodup_map hfs hf hw ?_
    exact hk.symm
  subst hfw
  exact ⟨v, he, hsymm _ he w hw hsame⟩

theorem sameElements_symm {xs ys : List JavaValue}
    (hsymm : ∀ x ∈ xs, ∀ y ∈ ys, sameBy r x y = true → sameBy r y x = true) (h : sameElements r xs ys = true) :
    sameElements r ys xs = true := by
  rw [sameElements_iff] at h ⊢
  induction h with
  | nil => exact .nil
  | cons hxy _ ih =>
    exact .cons (hsymm _ List.mem_cons_self _ List.mem_cons_self hxy)
      (ih fun x hx y hy => hsymm x (List.mem_cons_of_mem _ hx) y (List.mem_cons_of_mem _ hy))

theorem sameBy_symm (hr : ∀ a b, r a b = true → r b a = true) {u v : JavaValue} (hu : Stored u) (hv : Stored v)
    (h : sameBy r u v = true) : sameBy r v u = true := by
  induction hu generalizing v with
  | null =>
    obtain rfl := sameBy_null h
    exact h
  | bool b =>
    obtain rfl := sameBy_bool h
    exact h
  | string s =>
    obtain rfl := sameBy_string h
    exact h
  | number a =>
    obtain ⟨b, rfl, hab⟩ := sameBy_number h
    rw [sameBy]
    exact hr a b hab
  | list _ ih =>
    obtain ⟨ys, rfl, hxs⟩ := sameBy_list h
    cases hv with | list hys =>
    rw [sameBy]
    exact sameElements_symm (fun x hx y hy => ih x hx (hys y hy)) hxs
  | map hes _ ih =>
    obtain ⟨fs, rfl, hlen, hsame⟩ := sameBy_map h
    cases hv with | map hfs hstored =>
    rw [sameBy, Bool.and_eq_true, decide_eq_true_iff]
    exact ⟨hlen.symm, sameEntries_symm hes hfs hlen (fun e he w hw => ih e he (hstored _ hw)) hsame⟩

theorem sameElements_trans {xs ys zs : List JavaValue}
    (htrans : ∀ x ∈ xs, ∀ y z, sameBy r x y = true → sameBy r y z = true → sameBy r x z = true)
    (h : sameElements r xs ys = true) (h' : sameElements r ys zs = true) : sameElements r xs zs = true := by
  rw [sameElements_iff] at h h' ⊢
  induction h generalizing zs with
  | nil =>
    cases h'
    exact .nil
  | cons hxy _ ih =>
    cases h' with | cons hyz h' =>
    exact .cons (htrans _ List.mem_cons_self _ _ hxy hyz) (ih (fun x hx => htrans x (List.mem_cons_of_mem _ hx)) h')

theorem sameBy_trans (hr : ∀ a b c, r a b = true → r b c = true → r a c = true) {u v w : JavaValue} (hu : Stored u)
    (h : sameBy r u v = true) (h' : sameBy r v w = true) : sameBy r u w = true := by
  induction hu generalizing v w with
  | null => rwa [sameBy_null h] at h'
  | bool b => rwa [sameBy_bool h] at h'
  | string s => rwa [sameBy_string h] at h'
  | number a =>
    obtain ⟨b, rfl, hab⟩ := sameBy_number h
    obtain ⟨c, rfl, hbc⟩ := sameBy_number h'
    rw [sameBy]
    exact hr a b c hab hbc
  | list _ ih =>
    obtain ⟨ys, rfl, hxs⟩ := sameBy_list h
    obtain ⟨zs, rfl, hys⟩ := sameBy_list h'
    rw [sameBy]
    exact sameElements_trans (fun x hx y z => ih x hx) hxs hys
  | map _ _ ih =>
    obtain ⟨fs, rfl, hlen, hes⟩ := sameBy_map h
    obtain ⟨gs, rfl, hlen', hfs⟩ := sameBy_map h'
    rw [sameEntries_iff] at hes hfs
    rw [sameBy, Bool.and_eq_true, decide_eq_true_iff]
    refine ⟨hlen.trans hlen', sameEntries_iff.mpr fun e he => ?_⟩
    obtain ⟨v, hv, hev⟩ := hes e he
    obtain ⟨w, hw, hvw⟩ := hfs _ hv
    exact ⟨w, hw, ih e he hev hvw⟩

end Same

/-! ## Numbers -/

theorem canonical_eq_iff {d e : Binary64} :
    canonical d = canonical e ↔ (d = e || (isZeroDouble d && isZeroDouble e)) = true := by
  have hcanonical : isZeroDouble (.finite (.zero false)) = true := rfl
  unfold canonical
  rw [Bool.or_eq_true, Bool.and_eq_true, decide_eq_true_iff]
  constructor
  · intro h
    split at h
    · next hd =>
      split at h
      · next he => exact Or.inr ⟨hd, he⟩
      · next he => exact absurd (h ▸ hcanonical) he
    · next hd =>
      split at h
      · next he => exact absurd (h ▸ hcanonical) hd
      · exact Or.inl h
  · rintro (rfl | ⟨hd, he⟩)
    · rfl
    · rw [if_pos hd, if_pos he]

theorem sameNumber_iff {a b : JavaNumber} : sameNumber a b = true ↔ canonical a.doubleValue = canonical b.doubleValue :=
  canonical_eq_iff.symm

theorem sameNumber_symm (a b : JavaNumber) (h : sameNumber a b = true) : sameNumber b a = true :=
  sameNumber_iff.mpr (sameNumber_iff.mp h).symm

theorem sameNumber_trans (a b c : JavaNumber) (h : sameNumber a b = true) (h' : sameNumber b c = true) :
    sameNumber a c = true :=
  sameNumber_iff.mpr ((sameNumber_iff.mp h).trans (sameNumber_iff.mp h'))

/-! ## Deduplication -/

theorem innerNumbers_eq {v : JavaValue} (h : ∀ n, v ≠ .number n) : innerNumbers v = numbers v := by
  cases v with
  | number n => exact absurd rfl (h n)
  | _ => rfl

theorem normalizeKey_eq {v : JavaValue} (h : ∀ n, v ≠ .number n) : normalizeKey v = v := by
  cases v with
  | number n => exact absurd rfl (h n)
  | _ => rfl

/-- Keys are equal exactly if the values are, where equal numbers inside them have one class. -/
theorem key_eq {u v : JavaValue}
    (huniform : ∀ a ∈ innerNumbers u, ∀ b ∈ innerNumbers v, sameNumber a b = true → a = b) :
    javaEquals (normalizeKey u) (normalizeKey v) = jsonEqual u v := by
  unfold javaEquals jsonEqual
  by_cases hu : ∃ a, u = .number a
  · obtain ⟨a, rfl⟩ := hu
    cases v with
    | number b =>
      rw [normalizeKey, normalizeKey, sameBy, sameBy, Bool.eq_iff_iff, decide_eq_true_iff, sameNumber_iff,
        JavaNumber.double.injEq]
    | _ => simp [normalizeKey, sameBy]
  · have hu : ∀ a, u ≠ .number a := fun a ha => hu ⟨a, ha⟩
    rw [normalizeKey_eq hu, Bool.eq_iff_iff]
    by_cases hv : ∃ b, v = .number b
    · obtain ⟨b, rfl⟩ := hv
      cases u with
      | number a => exact absurd rfl (hu a)
      | _ => simp [normalizeKey, sameBy]
    · have hv : ∀ b, v ≠ .number b := fun b hb => hv ⟨b, hb⟩
      rw [innerNumbers_eq hu, innerNumbers_eq hv] at huniform
      rw [normalizeKey_eq hv]
      constructor
      · refine sameBy_mono u fun a _ b _ hab => ?_
        obtain rfl := of_decide_eq_true hab
        exact sameNumber_iff.mpr rfl
      · exact sameBy_mono u fun a ha b hb hab => decide_eq_true (huniform a ha b hb hab)

/-- The loop goes by equality of JSON values. -/
theorem mergeDedup_eq {column : List JavaValue} (h : Uniform column) :
    mergeDedup column = Repeats.scanBy jsonEqual [] 0 column := by
  have hpairs : ∀ p ∈ column.map fun v => (normalizeKey v, v), ∀ q ∈ [] ++ column.map fun v => (normalizeKey v, v),
      javaEquals p.1 q.1 = jsonEqual p.2 q.2 := by
    intro p hp q hq
    obtain ⟨u, hu, rfl⟩ := List.mem_map.mp hp
    obtain ⟨v, hv, rfl⟩ := List.mem_map.mp hq
    exact key_eq (h u hu v hv)
  have hcongr := Repeats.scanBy_congr hpairs 0
  rw [List.map_map, List.map_map] at hcongr
  unfold mergeDedup
  refine Eq.trans hcongr ?_
  congr 1
  exact List.map_id column

theorem jsonEqual_symm {u v : JavaValue} (hu : Stored u) (hv : Stored v) (h : jsonEqual u v = true) :
    jsonEqual v u = true := sameBy_symm sameNumber_symm hu hv h

theorem jsonEqual_trans {u v w : JavaValue} (hu : Stored u) (h : jsonEqual u v = true) (h' : jsonEqual v w = true) :
    jsonEqual u w = true := sameBy_trans sameNumber_trans hu h h'

/-- Equal values are equal to the same values. -/
theorem jsonEqual_congr {u u' v v' : JavaValue} (hu : Stored u) (hu' : Stored u') (hv : Stored v) (hv' : Stored v')
    (h : jsonEqual u u' = true) (h' : jsonEqual v v' = true) : jsonEqual u v = jsonEqual u' v' := by
  rw [Bool.eq_iff_iff]
  constructor
  · exact fun heq => jsonEqual_trans hu' (jsonEqual_symm hu hu' h) (jsonEqual_trans hu heq h')
  · exact fun heq => jsonEqual_trans hu h (jsonEqual_trans hu' heq (jsonEqual_symm hv hv' h'))

theorem Column.stored (column : Column) : ∀ v ∈ column.values, Stored v := by
  intro v hv
  obtain ⟨w, -, rfl⟩ := List.mem_map.mp hv
  exact w.property

/-- Equal frames lose the same items. -/
theorem mergeDedup_congr {xs ys : Column} (h : List.Forall₂ (fun u v => jsonEqual u v = true) xs.values ys.values)
    (hxs : Uniform xs.values) (hys : Uniform ys.values) : mergeDedup xs.values = mergeDedup ys.values := by
  have hlen := h.length_eq
  have hzip : ∀ p ∈ xs.values.zip ys.values, Stored p.1 ∧ Stored p.2 ∧ jsonEqual p.1 p.2 = true := by
    rintro ⟨u, v⟩ hp
    exact ⟨xs.stored u (List.of_mem_zip hp).1, ys.stored v (List.of_mem_zip hp).2,
      (List.forall₂_iff_zip.mp h).2 hp⟩
  have hpairs : ∀ p ∈ xs.values.zip ys.values, ∀ q ∈ [] ++ xs.values.zip ys.values,
      jsonEqual p.1 q.1 = jsonEqual p.2 q.2 := by
    intro p hp q hq
    obtain ⟨hu, hu', hequal⟩ := hzip p hp
    obtain ⟨hv, hv', hequal'⟩ := hzip q hq
    exact jsonEqual_congr hu hu' hv hv' hequal hequal'
  have hcongr := Repeats.scanBy_congr hpairs 0
  rw [mergeDedup_eq hxs, mergeDedup_eq hys]
  rw [List.map_fst_zip hlen.le, List.map_snd_zip hlen.ge] at hcongr
  exact hcongr

/-- The items that equal one before them. -/
theorem mem_mergeDedup {xs : Column} (h : Uniform xs.values) {i : Nat} : i ∈ mergeDedup xs.values ↔
    ∃ v, xs.values[i]? = some v ∧ ∃ j < i, ∃ u, xs.values[j]? = some u ∧ jsonEqual v u = true := by
  have htrans : ∀ {u v w : JavaValue}, Stored u → Stored v → Stored w → jsonEqual u v = true → jsonEqual v w = true →
      jsonEqual u w = true := fun hu _ _ => jsonEqual_trans hu
  have hseen : ∀ v ∈ ([] : List JavaValue), Stored v := nofun
  rw [mergeDedup_eq h, Repeats.mem_scanBy htrans hseen xs.stored]
  constructor
  · rintro ⟨m, v, hm, hv, hbefore⟩
    obtain rfl : i = m := by omega
    exact ⟨v, hv, hbefore.resolve_left nofun⟩
  · rintro ⟨v, hv, hbefore⟩
    exact ⟨i, v, (Nat.zero_add i).symm, hv, Or.inr hbefore⟩

/-! ## Texts of doubles -/

section Texts
open GoFormat FiniteBinary64
variable {f g : FiniteBinary64}

/-- The text of a double. -/
def textOf (d : Binary64) : List Char := sprintNumber (.double d)

theorem javaDigits_reads (hf : f.mant ≠ 0) : NumberText.scaled f.neg 10 (javaDigits f) = .finite f := by
  obtain ⟨hback, hlast⟩ := shortest_spec hf
  unfold javaDigits
  split
  · dsimp only
    rcases hc : f.readBack 2 with _ | c
    · rw [Option.getD_none, if_neg hlast]
      exact hback
    · have hread := scaled_of_readBack hc
      rw [Option.getD_some]
      split
      · next hten =>
        have hshift := scaled_shift f.neg (c.1 / 10) 1 c.2
        rw [pow_one, Nat.div_mul_cancel (Nat.dvd_of_mod_eq_zero hten)] at hshift
        exact hshift.symm.trans hread
      · exact hread
  · exact hback

theorem exponent_form (hf : f.mant ≠ 0) (hne : javaDigits f ≠ f.shortest) : javaExponent f < -4 ∧
    textOf (.finite f) = signOf f.neg ++ placed (decimal (javaDigits f).1) (javaExponent f) := by
  have hn : f.mant < 2 ^ 52 := by
    by_contra hn
    exact hne (javaDigits_eq (Nat.le_of_not_lt hn))
  have hlt : f.shortest.1 < 10 := by
    by_contra hlt
    exact hne (if_neg hlt)
  obtain ⟨-, hexp⟩ := javaDigits_short hf hlt
  obtain ⟨-, hhigh⟩ := decimalExponent_subnormal hf hn
  have hzero : f ≠ zero true := fun h => hf (by rw [h]; rfl)
  have hsmall : ¬ (f.IsIntegral ∧ f.truncNat < 10 ^ 6) := fun h => hne (javaDigits_eq (h.1.normal hf))
  have hdouble : textOf (.finite f) = sprintDouble (.finite f) := if_neg fun h => hzero (Binary64.finite.inj h)
  have hsprint : sprintDouble (.finite f) = formatG (.finite f) := by
    unfold sprintDouble smallWhole
    dsimp only
    rw [if_neg hsmall]
  exact ⟨by omega, by rw [hdouble, hsprint, formatG_eq hf]⟩

theorem textOf_cases (f : FiniteBinary64) : textOf (.finite f) = (formatFloat (.finite f)).toList ∨
    (f.mant ≠ 0 ∧ javaExponent f < -4 ∧
      textOf (.finite f) = signOf f.neg ++ placed (decimal (javaDigits f).1) (javaExponent f)) := by
  by_cases hzero : f = zero true
  · left
    rw [hzero, formatFloat_zero]
    rfl
  · have hdouble : textOf (.finite f) = sprintDouble (.finite f) := if_neg fun h => hzero (Binary64.finite.inj h)
    by_cases hdigits : f.mant ≠ 0 → javaDigits f = f.shortest
    · exact Or.inl (hdouble.trans ((sprintDouble_alike hzero).2.mpr hdigits))
    · obtain ⟨hf, hne⟩ := Classical.not_imp.mp hdigits
      exact Or.inr ⟨hf, exponent_form hf hne⟩

theorem not_mem_signOf {c : Char} (hc : c ≠ '-') (neg : Bool) : c ∉ signOf neg := by
  cases neg with
  | false => exact List.not_mem_nil
  | true => exact fun h => hc (List.mem_singleton.mp h)

/-- A text with an exponent has digits that are read back. -/
theorem textOf_exponent (he : 'e' ∈ textOf (.finite f)) : ∃ c : Nat × Int,
    NumberText.scaled f.neg 10 c = .finite f ∧ textOf (.finite f) =
      signOf f.neg ++ (pointed (decimal c.1) ++ exponentText (c.2 + (decimal c.1).length - 1)) := by
  have hsign := not_mem_signOf (c := 'e') (by decide) f.neg
  rcases textOf_cases f with htext | ⟨hf, hexp, htext⟩
  · by_cases hf : f.mant = 0
    · rw [htext, eq_zero_of_mant hf, formatFloat_zero] at he
      rcases List.mem_append.mp he with he | he
      · exact absurd he (not_mem_signOf (by decide) f.neg)
      · exact absurd he (by decide)
    · rw [formatFloat_finite hf, Json.placed_eq] at htext
      split at htext
      · exact ⟨f.shortest, (shortest_spec hf).1, htext⟩
      · rw [htext] at he
        rcases List.mem_append.mp he with he | he
        · exact absurd he hsign
        · exact absurd (plain_chars (decimal_digits _) _ _ he) (by decide)
  · rw [Json.placed_eq, if_pos (Or.inl hexp)] at htext
    exact ⟨javaDigits f, javaDigits_reads hf, htext⟩

/-- Different doubles have different texts. -/
theorem textOf_finite_inj (h : textOf (.finite f) = textOf (.finite g)) : f = g := by
  by_cases he : 'e' ∈ textOf (.finite f)
  · obtain ⟨c, hc, htext⟩ := textOf_exponent he
    obtain ⟨c', hc', htext'⟩ := textOf_exponent (f := g) (h ▸ he)
    obtain ⟨hsign, hparts⟩ := takeApart_signed (decimal_ne_nil _) (decimal_digits _) f.neg _ htext
    obtain ⟨hsign', hparts'⟩ := takeApart_signed (decimal_ne_nil _) (decimal_digits _) g.neg _ htext'
    rw [h] at hsign hparts
    rw [hparts', Prod.mk.injEq] at hparts
    obtain ⟨hdigits, hexp⟩ := hparts
    have hneg : f.neg = g.neg := Bool.eq_iff_iff.mpr (hsign.symm.trans hsign')
    have hm := decimal_inj hdigits
    rw [hm] at hexp
    have hcc : c = c' := Prod.ext hm.symm (by omega)
    rw [hcc, hneg, hc'] at hc
    exact (Binary64.finite.inj hc).symm
  · have hplain : ∀ {f : FiniteBinary64}, 'e' ∉ textOf (.finite f) →
        textOf (.finite f) = (formatFloat (.finite f)).toList := by
      intro f hf
      refine (textOf_cases f).resolve_right fun ⟨_, hexp, htext⟩ => hf ?_
      rw [htext, Json.placed_eq, if_pos (Or.inl hexp)]
      exact List.mem_append_right _ (List.mem_append_right _ List.mem_cons_self)
    have htext := hplain he
    have htext' := hplain (f := g) (h ▸ he)
    rw [h, htext', String.toList_inj, ← goFormatG_eq, ← goFormatG_eq] at htext
    exact (Json.goFormatG_inj htext).symm

theorem textOf_chars (f : FiniteBinary64) : ∀ c ∈ textOf (.finite f), isNumberChar c = true := by
  have hsign : ∀ c ∈ signOf f.neg, isNumberChar c = true := by
    intro c hc
    cases hneg : f.neg with
    | false => rw [hneg] at hc; cases hc
    | true => rw [hneg] at hc; rw [List.mem_singleton.mp hc]; rfl
  have hplaced : ∀ m x, ∀ c ∈ signOf f.neg ++ placed (decimal m) x, isNumberChar c = true := fun m x c hc =>
    (List.mem_append.mp hc).elim (hsign c) (placed_chars (decimal_chars _) _ c)
  rcases textOf_cases f with htext | ⟨-, -, htext⟩
  · rw [htext]
    by_cases hf : f.mant = 0
    · rw [eq_zero_of_mant hf, formatFloat_zero]
      intro c hc
      rcases List.mem_append.mp hc with hc | hc
      · exact hsign c hc
      · rw [List.mem_singleton.mp hc]
        rfl
    · rw [formatFloat_finite hf]
      exact hplaced _ _
  · rw [htext]
    exact hplaced _ _

theorem textOf_inj {d e : Binary64} (h : textOf d = textOf e) : d = e := by
  have hletter : ∀ {d : Binary64} {c : Char}, isNumberChar c = false → c ∈ textOf d → d.isFinite = false := by
    intro d c hc hmem
    cases d with
    | finite f => rw [textOf_chars f c hmem] at hc; cases hc
    | _ => rfl
  have hspecial : ∀ {d : Binary64}, d.isFinite = false → ∃ c ∈ textOf d, isNumberChar c = false := by
    intro d hd
    cases d with
    | finite f => cases hd
    | nan => exact ⟨'N', by decide, by decide⟩
    | inf neg => exact ⟨'I', by cases neg <;> decide, by decide⟩
  cases hd : d.isFinite with
  | true =>
    cases he : e.isFinite with
    | true =>
      cases d with
      | finite f =>
        cases e with
        | finite g => rw [textOf_finite_inj h]
        | _ => cases he
      | _ => cases hd
    | false =>
      obtain ⟨c, hc, hnumber⟩ := hspecial he
      rw [hletter hnumber (h ▸ hc)] at hd
      cases hd
  | false =>
    obtain ⟨c, hc, hnumber⟩ := hspecial hd
    have he := hletter hnumber (h ▸ hc)
    cases d with
    | finite f => cases hd
    | nan =>
      cases e with
      | finite g => cases he
      | nan => rfl
      | inf neg => exact absurd h (by cases neg <;> decide)
    | inf neg =>
      cases e with
      | finite g => cases he
      | nan => exact absurd h (by cases neg <;> decide)
      | inf neg' =>
        cases neg <;> cases neg'
        · rfl
        · exact absurd h (by decide)
        · exact absurd h (by decide)
        · rfl

end Texts

/-! ## Filtering -/

theorem isWanted_number (a b : JavaNumber) :
    isWanted (.number a) (.number b) = true ↔ a.doubleValue = b.doubleValue := by
  have htext : isWanted (.number a) (.number b) = decide (utf16 (textOf b.doubleValue) = utf16 (textOf a.doubleValue)) := by
    unfold isWanted normalizeForCompare
    rw [sprint, sprint]
    rfl
  have hunits : utf16 (textOf b.doubleValue) = utf16 (textOf a.doubleValue) ↔ textOf b.doubleValue = textOf a.doubleValue := by
    constructor
    · intro h
      rw [← GoFormat.unquote_utf16 (textOf b.doubleValue), h, GoFormat.unquote_utf16]
    · exact congrArg utf16
  rw [htext, decide_eq_true_iff, hunits]
  exact ⟨fun h => (textOf_inj h).symm, fun h => by rw [h]⟩

/-- Values of one kind have one text exactly if they are the same. -/
theorem isWanted_iff {value v : JavaValue} (h : SameKind value v) :
    isWanted value v = true ↔ sameBy (fun a b => a.doubleValue = b.doubleValue) value v = true := by
  cases h with
  | null => exact iff_of_true (by unfold isWanted; exact decide_eq_true rfl) (by rw [sameBy])
  | bool a b =>
    rw [sameBy, decide_eq_true_iff]
    unfold isWanted normalizeForCompare
    simp only [sprint]
    cases a <;> cases b <;> decide
  | number a b => rw [isWanted_number, sameBy, decide_eq_true_iff]
  | string s t =>
    have htext : isWanted (.string s) (.string t) = decide (t = s) := by
      unfold isWanted normalizeForCompare
      rw [sprint, sprint]
    rw [htext, sameBy, decide_eq_true_iff, decide_eq_true_iff]
    exact eq_comm

theorem Reclassed.normalized {u v : JavaValue} (h : Reclassed u v) : normalizeForCompare u = normalizeForCompare v := by
  cases h with
  | same => rfl
  | number h => rw [normalizeForCompare, normalizeForCompare, h]

/-- Filtering does not see the class of a number. -/
theorem filterCondition_congr {xs ys : List JavaValue} {value value' : JavaValue} (h : List.Forall₂ Reclassed xs ys)
    (hvalue : Reclassed value value') : filterCondition value xs = filterCondition value' ys := by
  unfold filterCondition
  rw [h.length_eq]
  refine List.filter_congr fun i hi => ?_
  have hy := List.mem_range.mp hi
  have hx : i < xs.length := h.length_eq ▸ hy
  have hcell : Reclassed xs[i] ys[i] := h.get hx hy
  rw [List.getElem?_eq_getElem hx, List.getElem?_eq_getElem hy, Option.any_some, Option.any_some]
  unfold isWanted
  rw [hcell.normalized, hvalue.normalized]

/-! ## The operators -/

/-- Frames of equal values, in each of which equal numbers inside arrays and objects have one class. -/
theorem compares_by_design {xs ys : Column} (value value' : JavaValue)
    (hequal : List.Forall₂ (fun u v => jsonEqual u v = true) xs.values ys.values) (hxs : Uniform xs.values)
    (hys : Uniform ys.values) : ComparesByDesign xs ys value value' where
  dedup := mergeDedup_congr hequal hxs hys
  removed _ := mem_mergeDedup hxs
  filter := filterCondition_congr
  wanted _ _ := isWanted_iff

/-- An `int`, a `double` and an array of one `int`. -/
def ints : Column := [⟨.number (.integer 1), .number _⟩, ⟨.number (.double (Binary64.ofInt 1)), .number _⟩,
  ⟨.list [.number (.integer 2)], .list fun x hx => by rw [List.mem_singleton.mp hx]; exact .number _⟩]

/-- The same values in other classes. -/
def longs : Column := [⟨.number (.long 1), .number _⟩, ⟨.number (.bigInteger 1), .number _⟩,
  ⟨.list [.number (.double (Binary64.ofInt 2))], .list fun x hx => by rw [List.mem_singleton.mp hx]; exact .number _⟩]

theorem compares_ints :
    List.Forall₂ (fun u v => jsonEqual u v = true) ints.values longs.values ∧ Uniform ints.values ∧ Uniform longs.values ∧
      ComparesByDesign ints longs (.number (.long 1)) (.number (.integer 1)) := by
  have hequal : List.Forall₂ (fun u v => jsonEqual u v = true) ints.values longs.values :=
    .cons (by decide +kernel) (.cons (by decide +kernel) (.cons (by decide +kernel) .nil))
  have hints : Uniform ints.values := by
    unfold Uniform
    decide +kernel
  have hlongs : Uniform longs.values := by
    unfold Uniform
    decide +kernel
  exact ⟨hequal, hints, hlongs, compares_by_design _ _ hequal hints hlongs⟩

/-- One item whose field is the string `1`. -/
def oneText : Column := [⟨.string (utf16 ['1']), .string _⟩]

/-- The filter for the number 1 removes the string, which is another value. -/
theorem string_matches_number : ¬ ∀ (xs ys : Column) (value value' : JavaValue),
    List.Forall₂ (fun u v => jsonEqual u v = true) xs.values ys.values → jsonEqual value value' = true →
      ComparesValues xs ys value value' := by
  intro h
  have hwanted := (h oneText oneText (.number (.integer 1)) (.number (.integer 1))
    (.cons (by decide +kernel) .nil) (by decide +kernel)).wanted (.string (utf16 ['1'])) List.mem_cons_self
  exact absurd hwanted (by decide +kernel)

end Pineapple.JavaCompare
