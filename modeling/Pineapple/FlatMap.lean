import Mathlib.Data.Finmap
import Mathlib.Data.Finset.Sort
import Mathlib.Data.String.Basic
import Pineapple.JsonWriter
import Pineapple.Lib.LowerBound
import Pineapple.Lib.SortedMap

/-! # Maps as sorted vectors (`flat_map.hpp`)

A `FlatMap` finds a key by a binary search in its entries. It is a map as long as the entries are strictly increasing by
key, which not every constructor sees to. -/

namespace Pineapple

variable {κ V : Type} [LinearOrder κ]

/-- `std::sort` by the keys; entries of one key come out in any order. -/
structure KeySort (κ V : Type) [LinearOrder κ] where
  sort : List (κ × V) → List (κ × V)
  perm : ∀ es, (sort es).Perm es
  sorted : ∀ es, (sort es).Pairwise fun a b => ¬ b.1 < a.1

structure FlatMap (κ V : Type) where
  entries : List (κ × V)

namespace FlatMap

/-! ## The operations -/

def lowerBound (f : FlatMap κ V) (key : κ) : Nat := LowerBound.lowerBound (fun entry => entry.1 < key) f.entries

def find (f : FlatMap κ V) (key : κ) : Option V :=
  match f.entries[f.lowerBound key]? with
  | some entry => if entry.1 = key then some entry.2 else none
  | none => none

def count (f : FlatMap κ V) (key : κ) : Nat := if (f.find key).isSome then 1 else 0

/-- `entries_.emplace` at the place of a key. -/
def emplaceAt (f : FlatMap κ V) (key : κ) (v : V) : FlatMap κ V :=
  ⟨f.entries.take (f.lowerBound key) ++ (key, v) :: f.entries.drop (f.lowerBound key)⟩

/-- `operator[]` that is read. -/
def subscript [Inhabited V] (f : FlatMap κ V) (key : κ) : FlatMap κ V × V :=
  match f.find key with
  | some v => (f, v)
  | none => (f.emplaceAt key default, default)

/-- A write through the reference that `operator[]` gives. -/
def assign [Inhabited V] (f : FlatMap κ V) (key : κ) (v : V) : FlatMap κ V :=
  ⟨(f.subscript key).1.entries.modify (f.lowerBound key) fun entry => (entry.1, v)⟩

def emplace (f : FlatMap κ V) (key : κ) (v : V) : FlatMap κ V × Bool :=
  match f.find key with
  | some _ => (f, false)
  | none => (f.emplaceAt key v, true)

/-- `erase` at an iterator. -/
def eraseAt (f : FlatMap κ V) (pos : Nat) : FlatMap κ V := ⟨f.entries.eraseIdx pos⟩

def erase (f : FlatMap κ V) (key : κ) : FlatMap κ V × Nat :=
  match f.find key with
  | some _ => (f.eraseAt (f.lowerBound key), 1)
  | none => (f, 0)

/-- `insert_presorted`, of a range of distinct keys in order. -/
def insertPresorted (_f : FlatMap κ V) (sortedEntries : SortedMap κ V) : FlatMap κ V := ⟨sortedEntries.entries⟩

end FlatMap

/-! ## Runs -/

inductive FlatMapOp (κ V : Type) [LinearOrder κ]
  | find (key : κ)
  | count (key : κ)
  | at (key : κ)
  | subscript (key : κ)
  | assign (key : κ) (v : V)
  | emplace (key : κ) (v : V)
  | erase (key : κ)
  | eraseAt (pos : Nat)
  | insertPresorted (sortedEntries : SortedMap κ V)
  | clear
  | reserve (n : Nat)
  | size
  | empty
  | iterate

inductive FlatMapAnswer (κ V : Type)
  | done
  | found (v : Option V)
  /-- what a reference is to, or an exception -/
  | value (v : Option V)
  | number (n : Nat)
  | flag (b : Bool)
  | entries (es : List (κ × V))

/-- The constructors; a list stands for a range as well. -/
inductive FlatMapStart (κ V : Type)
  | empty
  | list (init : List (κ × V))

def FlatMapStart.entries : FlatMapStart κ V → List (κ × V)
  | .empty => []
  | .list init => init

def FlatMapStart.construct (sorter : KeySort κ V) : FlatMapStart κ V → FlatMap κ V
  | .empty => ⟨[]⟩
  | .list init => ⟨sorter.sort init⟩

def FlatMap.step [Inhabited V] (f : FlatMap κ V) : FlatMapOp κ V → FlatMap κ V × FlatMapAnswer κ V
  | .find key => (f, .found (f.find key))
  | .count key => (f, .number (f.count key))
  | .at key => (f, .value (f.find key))
  | .subscript key => ((f.subscript key).1, .value (some (f.subscript key).2))
  | .assign key v => (f.assign key v, .done)
  | .emplace key v => ((f.emplace key v).1, .flag (f.emplace key v).2)
  | .erase key => ((f.erase key).1, .number (f.erase key).2)
  | .eraseAt pos => (f.eraseAt pos, .done)
  | .insertPresorted sortedEntries => (f.insertPresorted sortedEntries, .done)
  | .clear => (⟨[]⟩, .done)
  | .reserve _ => (f, .done)
  | .size => (f, .number f.entries.length)
  | .empty => (f, .flag f.entries.isEmpty)
  | .iterate => (f, .entries f.entries)

def FlatMap.run [Inhabited V] (f : FlatMap κ V) (ops : List (FlatMapOp κ V)) : FlatMap κ V :=
  ops.foldl (fun f op => (f.step op).1) f

/-! ## The map it stands for -/

/-- A finite map. -/
abbrev Members (κ V : Type) := Finmap fun _ : κ => V

namespace Members

def ofEntries (es : List (κ × V)) : Members κ V := es.foldr (fun e m => m.insert e.1 e.2) ∅

/-- The members by key. -/
noncomputable def inOrder (m : Members κ V) : List (κ × V) :=
  (m.keys.sort (· ≤ ·)).filterMap fun key => (m.lookup key).map fun v => (key, v)

/-- The map with members of others where it has none. -/
def addMissing (m others : Members κ V) : Members κ V := m ∪ others

noncomputable def step [Inhabited V] (m : Members κ V) : FlatMapOp κ V → Members κ V × FlatMapAnswer κ V
  | .find key => (m, .found (m.lookup key))
  | .count key => (m, .number (if (m.lookup key).isSome then 1 else 0))
  | .at key => (m, .value (m.lookup key))
  | .subscript key =>
    match m.lookup key with
    | some v => (m, .value (some v))
    | none => (m.insert key default, .value (some default))
  | .assign key v => (m.insert key v, .done)
  | .emplace key v =>
    match m.lookup key with
    | some _ => (m, .flag false)
    | none => (m.insert key v, .flag true)
  | .erase key => (m.erase key, .number (if (m.lookup key).isSome then 1 else 0))
  | .eraseAt pos =>
    match m.inOrder[pos]? with
    | some e => (m.erase e.1, .done)
    | none => (m, .done)
  | .insertPresorted sortedEntries => (m.addMissing (ofEntries sortedEntries.entries), .done)
  | .clear => (∅, .done)
  | .reserve _ => (m, .done)
  | .size => (m, .number m.keys.card)
  | .empty => (m, .flag (decide (m.keys = ∅)))
  | .iterate => (m, .entries m.inOrder)

end Members

/-- The entries increase, and every key has the value that the map gives it. -/
structure FlatMap.Denotes (f : FlatMap κ V) (m : Members κ V) : Prop where
  sorted : f.entries.Pairwise fun a b => a.1 < b.1
  lookup : ∀ key, f.entries.lookup key = m.lookup key

/-- The map holds before every operation and after the last, and every answer is the map's. -/
def FlatMap.Agrees [Inhabited V] (f : FlatMap κ V) (m : Members κ V) : List (FlatMapOp κ V) → Prop
  | [] => f.Denotes m
  | op :: ops => f.Denotes m ∧ (f.step op).2 = (m.step op).2 ∧ (f.step op).1.Agrees (m.step op).1 ops

/-- A map of the members of a list: one value for every key. -/
structure FlatMapStart.Means (start : FlatMapStart κ V) (m : Members κ V) : Prop where
  member : ∀ key v, m.lookup key = some v → (key, v) ∈ start.entries
  keys : ∀ e ∈ start.entries, (m.lookup e.1).isSome = true

/-- A run of a `FlatMap` is one of a map. -/
def FlatMap.Refines [Inhabited V] (sorter : KeySort κ V) (start : FlatMapStart κ V) (ops : List (FlatMapOp κ V)) : Prop :=
  ∃ m, start.Means m ∧ (start.construct sorter).Agrees m ops

/-- A presorted range holds all that the map has held when it comes. -/
def Members.Kept [Inhabited V] (m : Members κ V) : List (FlatMapOp κ V) → Prop
  | [] => True
  | op :: ops => (∀ sortedEntries, op = .insertPresorted sortedEntries →
      ∀ key v, m.lookup key = some v → sortedEntries.find? key = some v) ∧ (m.step op).1.Kept ops

/-! ## Strictly increasing entries -/

section
variable {f g : FlatMap κ V} {m : Members κ V} {es : List (κ × V)}

theorem partitioned_keys (h : es.Pairwise fun a b => a.1 < b.1) (key : κ) :
    LowerBound.Partitioned (fun entry : κ × V => entry.1 < key) es :=
  h.imp fun hab hb => decide_eq_true (hab.trans (of_decide_eq_true hb))

/-- The entries around the place of a key. -/
theorem FlatMap.split (h : f.entries.Pairwise fun a b => a.1 < b.1) (key : κ) :
    (∀ e ∈ f.entries.take (f.lowerBound key), e.1 < key) ∧ ∀ e ∈ f.entries.drop (f.lowerBound key), key ≤ e.1 := by
  obtain ⟨hlow, hhigh⟩ := LowerBound.lowerBound_spec (partitioned_keys h key)
  exact ⟨fun e he => of_decide_eq_true (hlow e he), fun e he => not_lt.mp (of_decide_eq_false (hhigh e he))⟩

theorem lookup_append_of_lt {pre post : List (κ × V)} {key : κ} (h : ∀ e ∈ pre, e.1 < key) :
    (pre ++ post).lookup key = post.lookup key := by
  induction pre with
  | nil => rfl
  | cons e pre ih =>
    rw [List.cons_append, SortedMap.lookup_cons, if_neg (h e List.mem_cons_self).ne',
      ih fun e he => h e (List.mem_cons_of_mem _ he)]

theorem lookup_none_of_lt {post : List (κ × V)} {key : κ} (h : ∀ e ∈ post, key < e.1) : post.lookup key = none := by
  induction post with
  | nil => rfl
  | cons e post ih =>
    rw [SortedMap.lookup_cons, if_neg (h e List.mem_cons_self).ne, ih fun e he => h e (List.mem_cons_of_mem _ he)]

/-- What stands at the place of a key: an entry of the key, or entries of greater keys only. -/
theorem FlatMap.place (h : f.entries.Pairwise fun a b => a.1 < b.1) (key : κ) :
    (∃ v post, f.entries.drop (f.lowerBound key) = (key, v) :: post ∧ f.find key = some v ∧
      f.entries.lookup key = some v) ∨
    ((∀ e ∈ f.entries.drop (f.lowerBound key), key < e.1) ∧ f.find key = none ∧ f.entries.lookup key = none) := by
  obtain ⟨hlow, hhigh⟩ := f.split h key
  have hlookup : f.entries.lookup key = (f.entries.drop (f.lowerBound key)).lookup key := by
    conv_lhs => rw [← List.take_append_drop (f.lowerBound key) f.entries]
    exact lookup_append_of_lt hlow
  have hget : f.entries[f.lowerBound key]? = (f.entries.drop (f.lowerBound key)).head? := by
    rw [List.head?_drop]
  have hsorted := h.sublist (List.drop_sublist (f.lowerBound key) f.entries)
  unfold FlatMap.find
  rw [hlookup, hget]
  rcases hdrop : f.entries.drop (f.lowerBound key) with _ | ⟨e, post⟩
  · exact Or.inr ⟨fun e he => absurd he List.not_mem_nil, rfl, rfl⟩
  · rw [hdrop] at hhigh hsorted
    have hpost := (List.pairwise_cons.mp hsorted).1
    by_cases he : e.1 = key
    · left
      obtain ⟨k, v⟩ := e
      obtain rfl : k = key := he
      refine ⟨v, post, rfl, if_pos rfl, ?_⟩
      rw [SortedMap.lookup_cons, if_pos rfl]
    · right
      have hlt : ∀ e' ∈ e :: post, key < e'.1 := by
        intro e' he'
        have hhead := lt_of_le_of_ne (hhigh e List.mem_cons_self) (Ne.symm he)
        rcases List.mem_cons.mp he' with rfl | he'
        · exact hhead
        · exact hhead.trans (hpost e' he')
      exact ⟨hlt, if_neg he, lookup_none_of_lt hlt⟩

theorem FlatMap.find_eq (h : f.entries.Pairwise fun a b => a.1 < b.1) (key : κ) : f.find key = f.entries.lookup key := by
  rcases f.place h key with ⟨v, post, -, hfind, hlookup⟩ | ⟨-, hfind, hlookup⟩
  · rw [hfind, hlookup]
  · rw [hfind, hlookup]

theorem insertEntry_append {pre post : List (κ × V)} {key : κ} (h : ∀ e ∈ pre, e.1 < key) (v : V) :
    SortedMap.insertEntry key v (pre ++ post) = pre ++ SortedMap.insertEntry key v post := by
  induction pre with
  | nil => rfl
  | cons e pre ih =>
    have he := h e List.mem_cons_self
    rw [List.cons_append, SortedMap.insertEntry, if_neg he.not_gt, if_neg he.ne',
      ih fun e he => h e (List.mem_cons_of_mem _ he)]
    rfl

theorem insertEntry_front {post : List (κ × V)} {key : κ} (h : ∀ e ∈ post, key < e.1) (v : V) :
    SortedMap.insertEntry key v post = (key, v) :: post := by
  rcases post with _ | ⟨e, post⟩
  · rfl
  · rw [SortedMap.insertEntry, if_pos (h e List.mem_cons_self)]

/-- A key that is not there is put at its place. -/
theorem FlatMap.emplaceAt_eq (h : f.entries.Pairwise fun a b => a.1 < b.1) {key : κ} (hnone : f.find key = none) (v : V) :
    (f.emplaceAt key v).entries = SortedMap.insertEntry key v f.entries := by
  obtain ⟨hlow, -⟩ := f.split h key
  rcases f.place h key with ⟨w, post, -, hfind, -⟩ | ⟨hhigh, -, -⟩
  · rw [hnone] at hfind
    cases hfind
  · conv_rhs => rw [← List.take_append_drop (f.lowerBound key) f.entries]
    rw [insertEntry_append hlow, insertEntry_front hhigh]
    rfl

theorem modify_middle {α : Type*} (pre : List α) (x : α) (post : List α) (g : α → α) :
    (pre ++ x :: post).modify pre.length g = pre ++ g x :: post := by
  induction pre with
  | nil => rfl
  | cons y pre ih => rw [List.cons_append, List.length_cons, List.modify_succ_cons, ih, List.cons_append]

theorem eraseIdx_middle {α : Type*} (pre : List α) (x : α) (post : List α) :
    (pre ++ x :: post).eraseIdx pre.length = pre ++ post := by
  induction pre with
  | nil => rfl
  | cons y pre ih => rw [List.cons_append, List.length_cons, List.eraseIdx_cons_succ, ih, List.cons_append]

/-- A key that is there: the entries around its own. -/
theorem FlatMap.around (h : f.entries.Pairwise fun a b => a.1 < b.1) {key : κ} {v : V} (hfind : f.find key = some v) :
    ∃ pre post, f.entries = pre ++ (key, v) :: post ∧ pre.length = f.lowerBound key ∧ (∀ e ∈ pre, e.1 < key) := by
  obtain ⟨hlow, -⟩ := f.split h key
  rcases f.place h key with ⟨w, post, hdrop, hw, -⟩ | ⟨-, hnone, -⟩
  · obtain rfl : w = v := Option.some.inj (hw.symm.trans hfind)
    have hlt : f.lowerBound key < f.entries.length := by
      have hlength := congrArg List.length hdrop
      rw [List.length_drop, List.length_cons] at hlength
      omega
    refine ⟨f.entries.take (f.lowerBound key), post, ?_, List.length_take_of_le hlt.le, hlow⟩
    rw [← hdrop, List.take_append_drop]
  · rw [hfind] at hnone
    cases hnone

theorem FlatMap.assign_eq [Inhabited V] (h : f.entries.Pairwise fun a b => a.1 < b.1) (key : κ) (v : V) :
    (f.assign key v).entries = SortedMap.insertEntry key v f.entries := by
  obtain ⟨hlow, -⟩ := f.split h key
  unfold FlatMap.assign FlatMap.subscript
  cases hfind : f.find key with
  | some w =>
    obtain ⟨pre, post, hentries, hlength, hlow⟩ := f.around h hfind
    dsimp only
    rw [← hlength, hentries, modify_middle, insertEntry_append hlow, SortedMap.insertEntry, if_neg (lt_irrefl key),
      if_pos rfl]
  | none =>
    rcases f.place h key with ⟨w, post, -, hw, -⟩ | ⟨hhigh, -, -⟩
    · rw [hfind] at hw
      cases hw
    · have hle : f.lowerBound key ≤ f.entries.length := LowerBound.lowerBound_le _ _
      have hlength : (f.entries.take (f.lowerBound key)).length = f.lowerBound key := List.length_take_of_le hle
      have hmodify := modify_middle (f.entries.take (f.lowerBound key)) (key, (default : V))
        (f.entries.drop (f.lowerBound key)) fun entry => (entry.1, v)
      rw [hlength] at hmodify
      conv_rhs => rw [← List.take_append_drop (f.lowerBound key) f.entries]
      rw [insertEntry_append hlow, insertEntry_front hhigh]
      exact hmodify

/-! ## One operation -/

theorem FlatMap.Denotes.find (h : f.Denotes m) (key : κ) : f.find key = m.lookup key :=
  (f.find_eq h.sorted key).trans (h.lookup key)

theorem FlatMap.Denotes.insert (h : f.Denotes m) (key : κ) (v : V)
    (hentries : g.entries = SortedMap.insertEntry key v f.entries) : g.Denotes (m.insert key v) := by
  refine ⟨hentries ▸ SortedMap.sorted_insertEntry key v h.sorted, fun k => ?_⟩
  rw [hentries, SortedMap.lookup_insertEntry]
  by_cases hk : k = key
  · rw [if_pos hk, hk, Finmap.lookup_insert]
  · rw [if_neg hk, h.lookup, Finmap.lookup_insert_of_ne _ hk]

theorem lookup_mem (h : es.Pairwise fun a b => a.1 < b.1) {key : κ} {v : V} : es.lookup key = some v ↔ (key, v) ∈ es :=
  SortedMap.lookup_eq_some_iff h key v

/-- An entry is taken out. -/
theorem FlatMap.Denotes.eraseIdx (h : f.Denotes m) {i : Nat} {e : κ × V} (hi : f.entries[i]? = some e) :
    (f.eraseAt i).Denotes (m.erase e.1) := by
  obtain ⟨hlt, he⟩ := List.getElem?_eq_some_iff.mp hi
  have hsplit : f.entries = f.entries.take i ++ e :: f.entries.drop (i + 1) := by
    rw [← he, List.cons_getElem_drop_succ, List.take_append_drop]
  have hlength : (f.entries.take i).length = i := List.length_take_of_le hlt.le
  have herase : (f.eraseAt i).entries = f.entries.take i ++ f.entries.drop (i + 1) := by
    have hmiddle := eraseIdx_middle (f.entries.take i) e (f.entries.drop (i + 1))
    rw [hlength, ← hsplit] at hmiddle
    exact hmiddle
  have hsorted := h.sorted
  rw [hsplit] at hsorted
  obtain ⟨hpre, hrest, hcross⟩ := List.pairwise_append.mp hsorted
  obtain ⟨hhead, hpost⟩ := List.pairwise_cons.mp hrest
  have hlow : ∀ a ∈ f.entries.take i, a.1 < e.1 := fun a ha => hcross a ha e List.mem_cons_self
  refine ⟨?_, fun k => ?_⟩
  · rw [herase]
    exact List.pairwise_append.mpr ⟨hpre, hpost, fun a ha b hb => hcross a ha b (List.mem_cons_of_mem _ hb)⟩
  · rw [herase]
    by_cases hk : k = e.1
    · rw [hk, Finmap.lookup_erase, lookup_append_of_lt hlow, lookup_none_of_lt hhead]
    · rw [Finmap.lookup_erase_ne hk, ← h.lookup]
      have hskip : ∀ l : List (κ × V), (l ++ e :: f.entries.drop (i + 1)).lookup k =
          (l ++ f.entries.drop (i + 1)).lookup k := by
        intro l
        induction l with
        | nil => rw [List.nil_append, List.nil_append, SortedMap.lookup_cons, if_neg hk]
        | cons a l ih => rw [List.cons_append, List.cons_append, SortedMap.lookup_cons, SortedMap.lookup_cons, ih]
      conv_rhs => rw [hsplit]
      exact (hskip _).symm

theorem Members.lookup_ofEntries (h : es.Pairwise fun a b => a.1 < b.1) (key : κ) :
    (Members.ofEntries es).lookup key = es.lookup key := by
  induction es with
  | nil => exact Finmap.lookup_empty key
  | cons e es ih =>
    have hrest := ih (List.pairwise_cons.mp h).2
    rw [SortedMap.lookup_cons]
    show (Finmap.insert e.1 e.2 (Members.ofEntries es)).lookup key = _
    by_cases hk : key = e.1
    · rw [if_pos hk, hk, Finmap.lookup_insert]
    · rw [if_neg hk, Finmap.lookup_insert_of_ne _ hk, hrest]

theorem FlatMap.Denotes.keys_eq (h : f.Denotes m) : m.keys = (f.entries.map Prod.fst).toFinset := by
  ext key
  rw [Finmap.mem_keys, Finmap.mem_iff, List.mem_toFinset, List.mem_map]
  constructor
  · rintro ⟨v, hv⟩
    exact ⟨(key, v), (lookup_mem h.sorted).mp ((h.lookup key).trans hv), rfl⟩
  · rintro ⟨e, he, rfl⟩
    exact ⟨e.2, (h.lookup e.1).symm.trans ((lookup_mem h.sorted).mpr he)⟩

theorem keys_nodup (h : es.Pairwise fun a b => a.1 < b.1) : (es.map Prod.fst).Nodup :=
  List.pairwise_map.mpr (h.imp fun hab => hab.ne)

theorem FlatMap.Denotes.card (h : f.Denotes m) : m.keys.card = f.entries.length := by
  rw [h.keys_eq, List.toFinset_card_of_nodup (keys_nodup h.sorted), List.length_map]

/-- Iteration goes through the members by key. -/
theorem FlatMap.Denotes.inOrder (h : f.Denotes m) : m.inOrder = f.entries := by
  have hkeys : m.keys.sort (· ≤ ·) = f.entries.map Prod.fst := by
    refine List.Perm.eq_of_pairwise (fun a b _ _ => le_antisymm) (Finset.pairwise_sort _ _)
      (List.pairwise_map.mpr (h.sorted.imp le_of_lt)) ?_
    rw [List.perm_ext_iff_of_nodup (Finset.sort_nodup _ _) (keys_nodup h.sorted)]
    intro key
    rw [Finset.mem_sort, h.keys_eq, List.mem_toFinset]
  have hvalues : ∀ e ∈ f.entries, (m.lookup e.1).map (fun v => (e.1, v)) = some e := by
    intro e he
    rw [← h.lookup, (lookup_mem h.sorted).mpr (show (e.1, e.2) ∈ f.entries from he)]
    rfl
  unfold Members.inOrder
  rw [hkeys, List.filterMap_map]
  exact (List.filterMap_congr hvalues).trans (List.filterMap_some)

theorem FlatMap.Denotes.isEmpty (h : f.Denotes m) : f.entries.isEmpty = decide (m.keys = ∅) := by
  rw [Bool.eq_iff_iff, decide_eq_true_iff, ← Finset.card_eq_zero, h.card, List.length_eq_zero_iff, List.isEmpty_iff]

/-- Every operation but `insert_presorted` is the map's. -/
theorem FlatMap.Denotes.step [Inhabited V] (h : f.Denotes m) {op : FlatMapOp κ V}
    (hkept : ∀ sortedEntries, op = .insertPresorted sortedEntries →
      ∀ key v, m.lookup key = some v → sortedEntries.find? key = some v) :
    (f.step op).2 = (m.step op).2 ∧ (f.step op).1.Denotes (m.step op).1 := by
  cases op with
  | find key => exact ⟨congrArg FlatMapAnswer.found (h.find key), h⟩
  | count key =>
    refine ⟨?_, h⟩
    show FlatMapAnswer.number (f.count key) = _
    unfold FlatMap.count
    rw [h.find]
    rfl
  | «at» key => exact ⟨congrArg FlatMapAnswer.value (h.find key), h⟩
  | subscript key =>
    have hfind := h.find key
    unfold FlatMap.step Members.step FlatMap.subscript
    dsimp only
    cases hv : m.lookup key with
    | some v =>
      rw [hv] at hfind
      rw [hfind]
      exact ⟨rfl, h⟩
    | none =>
      rw [hv] at hfind
      rw [hfind]
      exact ⟨rfl, h.insert key default (f.emplaceAt_eq h.sorted hfind default)⟩
  | assign key v => exact ⟨rfl, h.insert key v (f.assign_eq h.sorted key v)⟩
  | emplace key v =>
    have hfind := h.find key
    unfold FlatMap.step Members.step FlatMap.emplace
    dsimp only
    cases hv : m.lookup key with
    | some w =>
      rw [hv] at hfind
      rw [hfind]
      exact ⟨rfl, h⟩
    | none =>
      rw [hv] at hfind
      rw [hfind]
      exact ⟨rfl, h.insert key v (f.emplaceAt_eq h.sorted hfind v)⟩
  | erase key =>
    have hfind := h.find key
    unfold FlatMap.step Members.step FlatMap.erase
    dsimp only
    cases hv : m.lookup key with
    | some w =>
      rw [hv] at hfind
      obtain ⟨pre, post, hentries, hlength, -⟩ := f.around h.sorted hfind
      have hget : f.entries[f.lowerBound key]? = some (key, w) := by
        rw [← hlength, hentries, List.getElem?_append_right (Nat.le_refl _), Nat.sub_self]
        rfl
      rw [hfind]
      exact ⟨rfl, h.eraseIdx hget⟩
    | none =>
      rw [hv] at hfind
      rw [hfind]
      refine ⟨rfl, h.sorted, fun k => ?_⟩
      by_cases hk : k = key
      · rw [hk, Finmap.lookup_erase, h.lookup, hv]
      · rw [Finmap.lookup_erase_ne hk, h.lookup]
  | eraseAt pos =>
    unfold FlatMap.step Members.step
    dsimp only
    rw [h.inOrder]
    cases hget : f.entries[pos]? with
    | some e => exact ⟨rfl, h.eraseIdx hget⟩
    | none =>
      refine ⟨rfl, ?_⟩
      unfold FlatMap.eraseAt
      rw [List.eraseIdx_of_length_le (List.getElem?_eq_none_iff.mp hget)]
      exact h
  | insertPresorted sortedEntries =>
    refine ⟨rfl, sortedEntries.sorted, fun key => ?_⟩
    show sortedEntries.entries.lookup key = (m ∪ Members.ofEntries sortedEntries.entries).lookup key
    by_cases hmem : key ∈ m
    · obtain ⟨v, hv⟩ := Finmap.mem_iff.mp hmem
      rw [Finmap.lookup_union_left hmem, hv]
      exact hkept sortedEntries rfl key v hv
    · rw [Finmap.lookup_union_right hmem, Members.lookup_ofEntries sortedEntries.sorted]
  | clear =>
    refine ⟨rfl, List.Pairwise.nil, fun key => ?_⟩
    show _ = (∅ : Members κ V).lookup key
    rw [Finmap.lookup_empty]
    rfl
  | reserve n => exact ⟨rfl, h⟩
  | size => exact ⟨congrArg FlatMapAnswer.number h.card.symm, h⟩
  | empty => exact ⟨congrArg FlatMapAnswer.flag h.isEmpty, h⟩
  | iterate => exact ⟨congrArg FlatMapAnswer.entries h.inOrder.symm, h⟩

/-! ## Runs -/

/-- A run that starts as a map goes on as one exactly when the presorted ranges lose nothing. -/
theorem FlatMap.Denotes.agrees_iff [Inhabited V] (h : f.Denotes m) (ops : List (FlatMapOp κ V)) :
    f.Agrees m ops ↔ m.Kept ops := by
  induction ops generalizing f m with
  | nil => exact iff_of_true h trivial
  | cons op ops ih =>
    constructor
    · rintro ⟨-, -, hrest⟩
      have hnext : (f.step op).1.Denotes (m.step op).1 := by
        cases ops with
        | nil => exact hrest
        | cons op' ops => exact hrest.1
      refine ⟨?_, (ih hnext).mp hrest⟩
      rintro sortedEntries rfl key v hv
      have hlookup := hnext.lookup key
      have hmem : key ∈ m := Finmap.mem_iff.mpr ⟨v, hv⟩
      rw [show (m.step (.insertPresorted sortedEntries)).1 = m ∪ Members.ofEntries sortedEntries.entries from rfl,
        Finmap.lookup_union_left hmem, hv] at hlookup
      exact hlookup
    · rintro ⟨hkept, hrest⟩
      obtain ⟨hanswer, hnext⟩ := h.step hkept
      exact ⟨h, hanswer, (ih hnext).mpr hrest⟩

theorem FlatMap.Agrees.start [Inhabited V] {ops : List (FlatMapOp κ V)} (h : f.Agrees m ops) : f.Denotes m := by
  cases ops with
  | nil => exact h
  | cons op ops => exact h.1

theorem FlatMap.Agrees.finish [Inhabited V] {ops : List (FlatMapOp κ V)} (h : f.Agrees m ops) :
    ∃ m', (f.run ops).Denotes m' := by
  induction ops generalizing f m with
  | nil => exact ⟨m, h⟩
  | cons op ops ih => exact ih h.2.2

/-- Sorted entries with distinct keys. -/
theorem construct_sorted {sorter : KeySort κ V} {start : FlatMapStart κ V} :
    (start.construct sorter).entries.Pairwise (fun a b => a.1 < b.1) ↔ (start.entries.map Prod.fst).Nodup := by
  cases start with
  | empty => exact iff_of_true List.Pairwise.nil List.nodup_nil
  | list init =>
    have hperm := (sorter.perm init).map Prod.fst
    constructor
    · intro h
      exact hperm.nodup_iff.mp (keys_nodup h)
    · intro h
      have hnodup := List.pairwise_map.mp (hperm.nodup_iff.mpr h)
      exact (sorter.sorted init).imp₂ (fun a b hle hne => lt_of_le_of_ne (not_lt.mp hle) hne) hnodup

/-- The one map of a list of distinct keys. -/
theorem construct_denotes {sorter : KeySort κ V} {start : FlatMapStart κ V} (h : (start.entries.map Prod.fst).Nodup)
    {m : Members κ V} (hm : start.Means m) : (start.construct sorter).Denotes m := by
  have hsorted := @construct_sorted _ _ _ sorter start |>.mpr h
  have hmem : ∀ e, e ∈ (start.construct sorter).entries ↔ e ∈ start.entries := by
    intro e
    cases start with
    | empty => exact Iff.rfl
    | list init => exact (sorter.perm init).mem_iff
  refine ⟨hsorted, fun key => ?_⟩
  cases hv : m.lookup key with
  | some v => exact (lookup_mem hsorted).mpr ((hmem _).mpr (hm.member key v hv))
  | none =>
    refine Option.eq_none_iff_forall_ne_some.mpr fun v hlookup => ?_
    have hin := (hmem _).mp ((lookup_mem hsorted).mp hlookup)
    have := hm.keys (key, v) hin
    rw [hv] at this
    cases this

theorem Members.lookup_ofEntries_mem {es : List (κ × V)} {key : κ} {v : V}
    (h : (Members.ofEntries es).lookup key = some v) : (key, v) ∈ es := by
  induction es with
  | nil =>
    rw [show (Members.ofEntries ([] : List (κ × V))) = ∅ from rfl, Finmap.lookup_empty] at h
    cases h
  | cons e es ih =>
    change (Finmap.insert e.1 e.2 (Members.ofEntries es)).lookup key = some v at h
    by_cases hk : key = e.1
    · rw [hk, Finmap.lookup_insert] at h
      rw [hk, ← Option.some.inj h]
      exact List.mem_cons_self
    · rw [Finmap.lookup_insert_of_ne _ hk] at h
      exact List.mem_cons_of_mem _ (ih h)

theorem Members.isSome_ofEntries {es : List (κ × V)} {e : κ × V} (he : e ∈ es) :
    ((Members.ofEntries es).lookup e.1).isSome = true := by
  induction es with
  | nil => cases he
  | cons a es ih =>
    show ((Finmap.insert a.1 a.2 (Members.ofEntries es)).lookup e.1).isSome = true
    by_cases hk : e.1 = a.1
    · rw [hk, Finmap.lookup_insert]
      rfl
    · rw [Finmap.lookup_insert_of_ne _ hk]
      exact ih ((List.mem_cons.mp he).resolve_left fun h => hk (congrArg Prod.fst h))

theorem Members.means_ofEntries (start : FlatMapStart κ V) : start.Means (Members.ofEntries start.entries) :=
  ⟨fun _ _ => Members.lookup_ofEntries_mem, fun _ => Members.isSome_ofEntries⟩

/-- A run is one of a map exactly when its first list repeats no key and a presorted range comes only over members that
it holds as well. -/
theorem FlatMap.refines_iff [Inhabited V] (sorter : KeySort κ V) (start : FlatMapStart κ V) (ops : List (FlatMapOp κ V)) :
    FlatMap.Refines sorter start ops ↔
      (start.entries.map Prod.fst).Nodup ∧ (Members.ofEntries start.entries).Kept ops := by
  constructor
  · rintro ⟨m, hm, hagrees⟩
    have hnodup := construct_sorted.mp hagrees.start.sorted
    have hone : m = Members.ofEntries start.entries := Finmap.ext_lookup fun key =>
      (hagrees.start.lookup key).symm.trans ((construct_denotes hnodup (Members.means_ofEntries start)).lookup key)
    exact ⟨hnodup, hone ▸ (hagrees.start.agrees_iff ops).mp hagrees⟩
  · rintro ⟨hnodup, hkept⟩
    have hdenotes := @construct_denotes _ _ _ sorter start hnodup _ (Members.means_ofEntries start)
    exact ⟨_, Members.means_ofEntries start, (hdenotes.agrees_iff ops).mpr hkept⟩

/-- Two objects with the same members. -/
theorem FlatMap.Denotes.entries_eq {m' : Members κ V} (hf : f.Denotes m) (hg : g.Denotes m')
    (hsame : ∀ key, f.find key = g.find key) : f.entries = g.entries :=
  SortedMap.entries_ext hf.sorted hg.sorted fun key => by
    rw [← f.find_eq hf.sorted, ← g.find_eq hg.sorted, hsame]

end

/-- The JSON text of an object. -/
def FlatMap.text (toChars : FiniteBinary64 → Json.Bytes) (layouts : Nat → Json.Layout) (indent : Nat)
    (name : κ → Json.Bytes) (value : V → Json.Value) (f : FlatMap κ V) : Json.Bytes :=
  Json.dumpJson toChars layouts (.object (f.entries.map fun e => (name e.1, value e.2))) indent

/-- When a `FlatMap` is a map, and that two with the same members are then the same object and the same text. -/
theorem flatMap_is_map [Inhabited V] (sorter : KeySort κ V) :
    (∀ start ops, FlatMap.Refines sorter start ops ↔
      (start.entries.map Prod.fst).Nodup ∧ (Members.ofEntries start.entries).Kept ops) ∧
    ∀ start ops start' ops', FlatMap.Refines sorter start ops → FlatMap.Refines sorter start' ops' →
      (∀ key, ((start.construct sorter).run ops).find key = ((start'.construct sorter).run ops').find key) →
      ((start.construct sorter).run ops).entries = ((start'.construct sorter).run ops').entries ∧
      ∀ toChars layouts indent name value, ((start.construct sorter).run ops).text toChars layouts indent name value =
        ((start'.construct sorter).run ops').text toChars layouts indent name value := by
  refine ⟨FlatMap.refines_iff sorter, ?_⟩
  rintro start ops start' ops' ⟨m, -, hagrees⟩ ⟨m', -, hagrees'⟩ hsame
  obtain ⟨n, hn⟩ := hagrees.finish
  obtain ⟨n', hn'⟩ := hagrees'.finish
  have hentries := hn.entries_eq hn' hsame
  refine ⟨hentries, fun toChars layouts indent name value => ?_⟩
  unfold FlatMap.text
  rw [hentries]

/-- A sort that keeps the entries of one key in their order. -/
def KeySort.stable : KeySort κ V where
  sort es := es.mergeSort fun a b => decide (a.1 ≤ b.1)
  perm es := List.mergeSort_perm es _
  sorted es := by
    have htrans : ∀ a b c : κ × V, decide (a.1 ≤ b.1) = true → decide (b.1 ≤ c.1) = true → decide (a.1 ≤ c.1) = true :=
      fun a b c hab hbc => decide_eq_true ((of_decide_eq_true hab).trans (of_decide_eq_true hbc))
    have htotal : ∀ a b : κ × V, (decide (a.1 ≤ b.1) || decide (b.1 ≤ a.1)) = true := by
      intro a b
      rcases le_total a.1 b.1 with h | h <;> simp [h]
    exact (List.pairwise_mergeSort htrans htotal es).imp fun h => not_lt.mpr (of_decide_eq_true h)

theorem flatMap_is_map_two :
    FlatMap.Refines (KeySort.stable : KeySort String Nat) (.list [("b", 0), ("a", 5)]) [.assign "b" 7, .find "a"] :=
  ((flatMap_is_map KeySort.stable).1 (.list [("b", 0), ("a", 5)]) [.assign "b" 7, .find "a"]).mpr
    ⟨by decide +kernel, nofun, nofun, trivial⟩

/-- A list that repeats a key keeps both entries. -/
theorem repeated_key_kept : ¬ FlatMap.Refines (KeySort.stable : KeySort String Nat) (.list [("a", 0), ("a", 5)]) [] := by
  rw [FlatMap.refines_iff]
  rintro ⟨hnodup, -⟩
  exact absurd hnodup (by decide +kernel)

end Pineapple
