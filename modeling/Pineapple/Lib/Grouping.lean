import Mathlib.Data.List.Induction
import Mathlib.Logic.Function.Basic

/-! # Groups numbered by first appearance

Items with a key join the group of the key, which their first one opens; an item without a key has a group of its
own. -/

namespace Grouping

universe u v
variable {κ : Type u} {γ : Type v}

structure Groups (κ : Type u) (γ : Type v) where
  groups : List γ := []
  seen : κ → Option Nat := fun _ => none
  place : List Nat := []

def Groups.add [DecidableEq κ] (s : Groups κ γ) (item : Option κ × γ) : Groups κ γ :=
  match item.1 with
  | none => { s with groups := s.groups ++ [item.2], place := s.place ++ [s.groups.length] }
  | some k =>
    match s.seen k with
    | some a => { s with place := s.place ++ [a] }
    | none =>
      ⟨s.groups ++ [item.2], Function.update s.seen k (some s.groups.length), s.place ++ [s.groups.length]⟩

def group [DecidableEq κ] (items : List (Option κ × γ)) : Groups κ γ := items.foldl Groups.add {}

structure Inv (items : List (Option κ × γ)) (s : Groups κ γ) : Prop where
  length : s.place.length = items.length
  lt : ∀ (i a : Nat), s.place[i]? = some a → a < s.groups.length
  seen : ∀ k a, s.seen k = some a ↔ ∃ (i : Nat) (g : γ), items[i]? = some (some k, g) ∧ s.place[i]? = some a
  /-- Two items share a group exactly when they share a key. -/
  same : ∀ (i j : Nat) (e e' : Option κ × γ), items[i]? = some e → items[j]? = some e' →
    (s.place[i]? = s.place[j]? ↔ i = j ∨ ∃ k, e.1 = some k ∧ e'.1 = some k)
  /-- Every group is that of an item. -/
  onto : ∀ (a : Nat) (g : γ), s.groups[a]? = some g → ∃ (i : Nat) (e : Option κ × γ), items[i]? = some e ∧ s.place[i]? = some a ∧ e.2 = g

theorem getElem?_snoc {α : Type*} (l : List α) (x : α) (i : Nat) (y : α) :
    (l ++ [x])[i]? = some y ↔ i < l.length ∧ l[i]? = some y ∨ i = l.length ∧ x = y := by
  rcases Nat.lt_trichotomy i l.length with h | h | h
  · rw [List.getElem?_append_left h]
    exact ⟨fun hy => .inl ⟨h, hy⟩, fun hy => hy.elim (·.2) fun hy => absurd hy.1 (Nat.ne_of_lt h)⟩
  · subst h
    simp
  · rw [List.getElem?_append_right (Nat.le_of_lt h), List.getElem?_eq_none (by simp; omega)]
    constructor
    · rintro ⟨⟩
    · rintro (hy | hy) <;> omega

theorem getElem?_before {α : Type*} {l : List α} {x y : α} {i : Nat} (h : l[i]? = some y) : (l ++ [x])[i]? = some y :=
  (List.getElem?_append_left (List.getElem?_eq_some_iff.mp h).1).trans h

variable {items : List (Option κ × γ)} {s : Groups κ γ}

theorem Inv.lt_length (h : Inv items s) {i : Nat} {e : Option κ × γ} (he : items[i]? = some e) :
    ∃ a, s.place[i]? = some a := by
  have hlt := (List.getElem?_eq_some_iff.mp he).1
  rw [← h.length] at hlt
  exact ⟨_, List.getElem?_eq_getElem hlt⟩

/-- An item opens a group. -/
theorem Inv.opens (h : Inv items s) {item : Option κ × γ} {seen : κ → Option Nat}
    (hnew : ∀ k, item.1 = some k → s.seen k = none)
    (hseen : ∀ k a, seen k = some a ↔ s.seen k = some a ∨ item.1 = some k ∧ a = s.groups.length) :
    Inv (items ++ [item]) ⟨s.groups ++ [item.2], seen, s.place ++ [s.groups.length]⟩ := by
  have hfresh : ∀ (i : Nat) (e : Option κ × γ), items[i]? = some e → ∀ k, e.1 = some k → item.1 ≠ some k := by
    rintro i ⟨_, g⟩ he k rfl hk
    obtain ⟨a, ha⟩ := h.lt_length he
    have := (h.seen k a).mpr ⟨i, g, he, ha⟩
    rw [hnew k hk] at this
    cases this
  have hlt : ∀ (i : Nat) (e : Option κ × γ), items[i]? = some e → (s.place ++ [s.groups.length])[i]? = s.place[i]? := fun i e he =>
    List.getElem?_append_left (by rw [h.length]; exact (List.getElem?_eq_some_iff.mp he).1)
  have hlast : (s.place ++ [s.groups.length])[items.length]? = some s.groups.length := by
    rw [← h.length]
    simp
  have hne : ∀ (i : Nat) (e : Option κ × γ), items[i]? = some e → s.place[i]? ≠ some s.groups.length := fun i e _ ha =>
    Nat.lt_irrefl _ (h.lt i _ ha)
  refine ⟨by simp [h.length], fun i a ha => ?_, fun k a => ?_, fun i j e e' hi hj => ?_, fun a g hg => ?_⟩
  · rw [List.length_append, List.length_singleton]
    rcases (getElem?_snoc ..).mp ha with ⟨_, ha⟩ | ⟨_, rfl⟩
    · exact Nat.lt_succ_of_lt (h.lt i a ha)
    · exact Nat.lt_succ_self _
  · simp only [hseen, h.seen]
    constructor
    · rintro (⟨i, g, hi, ha⟩ | ⟨hk, rfl⟩)
      · exact ⟨i, g, (getElem?_snoc ..).mpr (.inl ⟨(List.getElem?_eq_some_iff.mp hi).1, hi⟩), (hlt i _ hi).trans ha⟩
      · exact ⟨items.length, item.2, (getElem?_snoc ..).mpr (.inr ⟨rfl, by rw [← hk]⟩), hlast⟩
    · rintro ⟨i, g, hi, ha⟩
      rcases (getElem?_snoc ..).mp hi with ⟨_, hi⟩ | ⟨rfl, rfl⟩
      · exact .inl ⟨i, g, hi, (hlt i _ hi).symm.trans ha⟩
      · exact .inr ⟨rfl, Option.some.inj (ha.symm.trans hlast)⟩
  · rcases (getElem?_snoc ..).mp hi with ⟨hil, hi⟩ | ⟨rfl, rfl⟩
    · rcases (getElem?_snoc ..).mp hj with ⟨_, hj⟩ | ⟨rfl, rfl⟩
      · simp only [hlt i _ hi, hlt j _ hj]
        exact h.same i j e e' hi hj
      · simp only [hlt i _ hi, hlast]
        refine iff_of_false (hne i e hi) ?_
        rintro (rfl | ⟨k, hk, hk'⟩)
        · exact Nat.lt_irrefl _ hil
        · exact hfresh i e hi k hk hk'
    · rcases (getElem?_snoc ..).mp hj with ⟨hjl, hj⟩ | ⟨rfl, rfl⟩
      · simp only [hlt j _ hj, hlast]
        refine iff_of_false (fun ha => hne j e' hj ha.symm) ?_
        rintro (rfl | ⟨k, hk, hk'⟩)
        · exact Nat.lt_irrefl _ hjl
        · exact hfresh j e' hj k hk' hk
      · exact iff_of_true rfl (.inl rfl)
  · rcases (getElem?_snoc ..).mp hg with ⟨_, hg⟩ | ⟨rfl, rfl⟩
    · obtain ⟨i, e, hi, ha, he⟩ := h.onto a g hg
      exact ⟨i, e, (getElem?_snoc ..).mpr (.inl ⟨(List.getElem?_eq_some_iff.mp hi).1, hi⟩), (hlt i _ hi).trans ha, he⟩
    · exact ⟨items.length, item, by simp, hlast, rfl⟩

/-- An item joins the group of its key. -/
theorem Inv.joins (h : Inv items s) {k₀ : κ} {g₀ : γ} {a₀ : Nat} (hseen : s.seen k₀ = some a₀) :
    Inv (items ++ [(some k₀, g₀)]) { s with place := s.place ++ [a₀] } := by
  obtain ⟨i₀, g₁, hi₀, ha₀⟩ := (h.seen k₀ a₀).mp hseen
  have hlt : ∀ (i : Nat) (e : Option κ × γ), items[i]? = some e → (s.place ++ [a₀])[i]? = s.place[i]? := fun i e he =>
    List.getElem?_append_left (by rw [h.length]; exact (List.getElem?_eq_some_iff.mp he).1)
  have hlast : (s.place ++ [a₀])[items.length]? = some a₀ := by
    rw [← h.length]
    simp
  have hkey : ∀ (i : Nat) (e : Option κ × γ), items[i]? = some e → (s.place[i]? = some a₀ ↔ e.1 = some k₀) := fun i e hi => by
    rw [← ha₀, h.same i i₀ e (some k₀, g₁) hi hi₀]
    constructor
    · rintro (rfl | ⟨k, hk, hk'⟩)
      · rw [hi₀] at hi
        cases hi
        rfl
      · rw [hk, ← hk']
    · exact fun hk => .inr ⟨k₀, hk, rfl⟩
  refine ⟨by simp [h.length], fun i a ha => ?_, fun k a => ?_, fun i j e e' hi hj => ?_, fun a g hg => ?_⟩
  · rcases (getElem?_snoc ..).mp ha with ⟨_, ha⟩ | ⟨_, rfl⟩
    · exact h.lt i a ha
    · exact h.lt i₀ a₀ ha₀
  · rw [h.seen]
    constructor
    · rintro ⟨i, g, hi, ha⟩
      exact ⟨i, g, (getElem?_snoc ..).mpr (.inl ⟨(List.getElem?_eq_some_iff.mp hi).1, hi⟩), (hlt i _ hi).trans ha⟩
    · rintro ⟨i, g, hi, ha⟩
      rcases (getElem?_snoc ..).mp hi with ⟨_, hi⟩ | ⟨rfl, heq⟩
      · exact ⟨i, g, hi, (hlt i _ hi).symm.trans ha⟩
      · cases heq
        obtain rfl : a₀ = a := Option.some.inj (hlast.symm.trans ha)
        exact ⟨i₀, g₁, hi₀, ha₀⟩
  · rcases (getElem?_snoc ..).mp hi with ⟨hil, hi⟩ | ⟨rfl, rfl⟩
    · rcases (getElem?_snoc ..).mp hj with ⟨_, hj⟩ | ⟨rfl, rfl⟩
      · simp only [hlt i _ hi, hlt j _ hj]
        exact h.same i j e e' hi hj
      · simp only [hlt i _ hi, hlast, hkey i e hi]
        constructor
        · exact fun hk => .inr ⟨k₀, hk, rfl⟩
        · rintro (rfl | ⟨k, hk, hk'⟩)
          · exact absurd hil (Nat.lt_irrefl _)
          · rw [hk, ← hk']
    · rcases (getElem?_snoc ..).mp hj with ⟨hjl, hj⟩ | ⟨rfl, rfl⟩
      · simp only [hlt j _ hj, hlast]
        rw [eq_comm, hkey j e' hj]
        constructor
        · exact fun hk => .inr ⟨k₀, rfl, hk⟩
        · rintro (rfl | ⟨k, hk, hk'⟩)
          · exact absurd hjl (Nat.lt_irrefl _)
          · rw [hk', ← hk]
      · exact iff_of_true rfl (.inl rfl)
  · obtain ⟨i, e, hi, ha, he⟩ := h.onto a g hg
    exact ⟨i, e, (getElem?_snoc ..).mpr (.inl ⟨(List.getElem?_eq_some_iff.mp hi).1, hi⟩), (hlt i _ hi).trans ha, he⟩

theorem Inv.add [DecidableEq κ] (h : Inv items s) (item : Option κ × γ) : Inv (items ++ [item]) (s.add item) := by
  obtain ⟨key, g⟩ := item
  cases key with
  | none => exact h.opens nofun fun k a => by simp
  | some k₀ =>
    cases hk : s.seen k₀ with
    | some a₀ =>
      rw [Groups.add]
      simp only [hk]
      exact h.joins hk
    | none =>
      rw [Groups.add]
      simp only [hk]
      refine h.opens (fun k heq => by cases heq; exact hk) fun k a => ?_
      by_cases hkk : k = k₀
      · subst hkk
        simp [hk, eq_comm]
      · simp [Function.update_of_ne hkk, Ne.symm hkk]

theorem group_inv [DecidableEq κ] (items : List (Option κ × γ)) : Inv items (group items) := by
  have hgen : ∀ (rest done : List (Option κ × γ)) (s : Groups κ γ), Inv done s →
      Inv (done ++ rest) (rest.foldl Groups.add s) := by
    intro rest
    induction rest with
    | nil => exact fun done s h => by rwa [List.append_nil]
    | cons item rest ih =>
      intro done s h
      have := ih _ _ (h.add item)
      rwa [List.append_assoc] at this
  exact hgen items [] {} ⟨rfl, by simp, by simp, by simp, by simp⟩

/-- Where the key determines what a group shows, a group shows what each of its items does. -/
theorem Inv.groups_place (h : Inv items s)
    (hdata : ∀ e ∈ items, ∀ e' ∈ items, ∀ k, e.1 = some k → e'.1 = some k → e.2 = e'.2) {i a : Nat} {e : Option κ × γ}
    (hi : items[i]? = some e) (ha : s.place[i]? = some a) : s.groups[a]? = some e.2 := by
  obtain ⟨g, hg⟩ : ∃ g, s.groups[a]? = some g := ⟨_, List.getElem?_eq_getElem (h.lt i a ha)⟩
  obtain ⟨j, e', hj, haj, rfl⟩ := h.onto a g hg
  rw [hg]
  rcases (h.same i j e e' hi hj).mp (ha.trans haj.symm) with rfl | ⟨k, hk, hk'⟩
  · rw [hi] at hj
    cases hj
    rfl
  · rw [hdata e (List.mem_of_getElem? hi) e' (List.mem_of_getElem? hj) k hk hk']

/-- The group that an item joins. -/
def Groups.target (s : Groups κ γ) (item : Option κ × γ) : Option Nat := item.1.bind s.seen

theorem Groups.add_groups [DecidableEq κ] (s : Groups κ γ) (item : Option κ × γ) :
    (s.add item).groups = (if (s.target item).isSome then s.groups else s.groups ++ [item.2]) ∧
      (s.add item).place = s.place ++ [(s.target item).getD s.groups.length] := by
  obtain ⟨key, g⟩ := item
  cases key with
  | none => exact ⟨rfl, rfl⟩
  | some k => cases hk : s.seen k <;> simp [add, target, hk]

/-- Items of one list share a key where those of the other do. -/
def SameShares {κ' : Type*} (items : List (Option κ × γ)) (items' : List (Option κ' × γ)) : Prop :=
  ∀ (i j : Nat) (e₁ e₂ : Option κ × γ) (e₁' e₂' : Option κ' × γ), i < j → items[i]? = some e₁ → items[j]? = some e₂ →
    items'[i]? = some e₁' → items'[j]? = some e₂' →
    ((∃ k, e₁.1 = some k ∧ e₂.1 = some k) ↔ ∃ k, e₁'.1 = some k ∧ e₂'.1 = some k)

/-- An item joins the same group in both where the shares are the same. -/
theorem Inv.target_eq {κ' : Type*} {items' : List (Option κ' × γ)} {t : Groups κ' γ} (h : Inv items s) (h' : Inv items' t)
    (hlen : items.length = items'.length) (hplace : s.place = t.place) {e : Option κ × γ} {e' : Option κ' × γ}
    (hshare : ∀ (i : Nat) (x : Option κ × γ) (x' : Option κ' × γ), items[i]? = some x → items'[i]? = some x' →
      (∃ k, x.1 = some k ∧ e.1 = some k) → ∃ k, x'.1 = some k ∧ e'.1 = some k) {a : Nat} (ha : s.target e = some a) :
    t.target e' = some a := by
  obtain ⟨k, hk, hseen⟩ := Option.bind_eq_some_iff.mp ha
  obtain ⟨i, g, hi, hia⟩ := (h.seen k a).mp hseen
  have hlt := (List.getElem?_eq_some_iff.mp hi).1
  rw [hlen] at hlt
  have hi' := List.getElem?_eq_getElem hlt
  obtain ⟨k', hx, he⟩ := hshare i _ _ hi hi' ⟨k, rfl, hk⟩
  refine Option.bind_eq_some_iff.mpr ⟨k', he, (h'.seen k' a).mpr ⟨i, items'[i].2, ?_, hplace ▸ hia⟩⟩
  rw [hi', ← hx]

theorem group_snoc [DecidableEq κ] (l : List (Option κ × γ)) (x : Option κ × γ) : group (l ++ [x]) = (group l).add x :=
  List.foldl_append

/-- Lists of the same data and the same shares are grouped alike. -/
theorem group_congr [DecidableEq κ] {κ' : Type*} [DecidableEq κ'] {items : List (Option κ × γ)}
    {items' : List (Option κ' × γ)} (hdata : items.map Prod.snd = items'.map Prod.snd) (hshares : SameShares items items') :
    (group items).groups = (group items').groups ∧ (group items).place = (group items').place := by
  induction items using List.reverseRecOn generalizing items' with
  | nil =>
    obtain rfl := List.map_eq_nil_iff.mp hdata.symm
    exact ⟨rfl, rfl⟩
  | append_singleton items e ih =>
    obtain ⟨items', e', rfl⟩ : ∃ l x, items' = l ++ [x] := by
      refine ⟨items'.dropLast, items'.getLast ?_, (List.dropLast_concat_getLast _).symm⟩
      rintro rfl
      simp at hdata
    rw [List.map_append, List.map_append] at hdata
    obtain ⟨hdata, he⟩ := List.append_inj' hdata rfl
    have hlen : items.length = items'.length := by simpa using congrArg List.length hdata
    obtain ⟨hgroups, hplace⟩ := ih hdata fun i j e₁ e₂ e₁' e₂' hij h₁ h₂ h₁' h₂' =>
      hshares i j e₁ e₂ e₁' e₂' hij (getElem?_before h₁) (getElem?_before h₂) (getElem?_before h₁') (getElem?_before h₂')
    have hlast : ∀ (i : Nat) (x : Option κ × γ) (x' : Option κ' × γ), items[i]? = some x → items'[i]? = some x' →
        ((∃ k, x.1 = some k ∧ e.1 = some k) ↔ ∃ k, x'.1 = some k ∧ e'.1 = some k) := fun i x x' hx hx' =>
      hshares i items.length x e x' e' (List.getElem?_eq_some_iff.mp hx).1 (getElem?_before hx) (by simp) (getElem?_before hx')
        (by rw [hlen]; simp)
    have htarget : (group items).target e = (group items').target e' := by
      cases ha : (group items).target e with
      | some a => exact ((group_inv items).target_eq (group_inv items') hlen hplace
          (fun i x x' hx hx' => (hlast i x x' hx hx').mp) ha).symm
      | none =>
        cases ha' : (group items').target e' with
        | none => rfl
        | some a =>
          have := (group_inv items').target_eq (group_inv items) hlen.symm hplace.symm
            (fun i x' x hx' hx => (hlast i x x' hx hx').mpr) ha'
          rw [ha] at this
          cases this
    have he : e.2 = e'.2 := by simpa using he
    rw [group_snoc, group_snoc, (Groups.add_groups _ _).1, (Groups.add_groups _ _).1, (Groups.add_groups _ _).2,
      (Groups.add_groups _ _).2, htarget, hgroups, hplace, he]
    exact ⟨rfl, rfl⟩

end Grouping
