import Pineapple.Column

/-! # Go's columns (`column.go`)

Go keeps a column of its own for `float64`, `string` and `bool` values and one of boxed values for all others,
chosen by the exact type. A column is the data and the presence bits; `Column.Holds` says which cells they stand
for, an absent slot holding the zero of the column's type, which is `nil` in a column of boxed values. -/

namespace Pineapple.GoColumns

/-- An `any` as the columns tell values apart: `other` is every type without a column of its own. -/
inductive Value (β : Type) where
  | nil
  | float64 (d : Binary64)
  | string (s : String)
  | bool (b : Bool)
  | other (x : β)
deriving DecidableEq

/-- `columnKind`. -/
inductive Kind where
  | json | float64 | string | bool
deriving DecidableEq

variable {β : Type}

/-- `v == nil`. -/
def Value.isNil : Value β → Bool
  | .nil => true
  | _ => false

namespace Kind

/-- What a column of this kind stores. -/
abbrev Elem (β : Type) : Kind → Type
  | json => Value β
  | float64 => Binary64
  | string => String
  | bool => Bool

/-- The value as an element of the column, if it belongs there. -/
def accept : (k : Kind) → Value β → Option (k.Elem β)
  | json, v => some v
  | float64, .float64 d => some d
  | string, .string s => some s
  | bool, .bool b => some b
  | _, _ => none

/-- The element as an `any`. -/
def box : (k : Kind) → k.Elem β → Value β
  | json, v => v
  | float64, d => .float64 d
  | string, s => .string s
  | bool, b => .bool b

/-- `var zero T`. -/
def zero : (k : Kind) → k.Elem β
  | json => .nil
  | float64 => Binary64.zero
  | string => ""
  | bool => false

/-- The kind of the column for a value, by its exact type. -/
def ofValue : Value β → Kind
  | .float64 _ => float64
  | .string _ => string
  | .bool _ => bool
  | _ => json

theorem box_accept {k : Kind} {v : Value β} {x : k.Elem β} (h : k.accept v = some x) : k.box x = v := by
  cases k with
  | json => exact (Option.some.inj h).symm
  | float64 => cases v <;> simp_all [accept, box]
  | string => cases v <;> simp_all [accept, box]
  | bool => cases v <;> simp_all [accept, box]

theorem accept_ofValue (v : Value β) : ((ofValue v).accept v).isSome = true := by
  cases v <;> rfl

theorem isNil_box {k : Kind} (h : k ≠ json) (x : k.Elem β) : (k.box x).isNil = false := by
  cases k <;> first | exact absurd rfl h | rfl

end Kind

/-- `column`: a column with its kind. -/
structure Column (β : Type) where
  kind : Kind
  slots : TypedColumn (kind.Elem β)

namespace Column

/-- `newJSONColumn`, `newFloat64Column`, `newStringColumn` and `newBoolColumn`. -/
def blank (k : Kind) (n : Nat) : Column β := ⟨k, List.replicate n k.zero, List.replicate n false, by simp⟩

def adoptFloat64 (vals : List Binary64) : Column β := ⟨.float64, .adopt vals⟩

def len (c : Column β) : Nat := c.slots.data.length

def present (c : Column β) (i : Nat) : Bool := c.slots.validity.getD i false

def isNull : Column β → Nat → Bool
  | ⟨.json, s⟩, i => !s.validity.getD i false || (s.data.getD i .nil).isNil
  | ⟨_, s⟩, i => !s.validity.getD i false

/-- A column of boxed values returns what the slot holds, present or not. -/
def get : Column β → Nat → Value β
  | ⟨.json, s⟩, i => s.data.getD i .nil
  | ⟨k, s⟩, i => if s.validity.getD i false then (s.data[i]?.map k.box).getD .nil else .nil

/-- Nothing when the column does not take the value. -/
def set (c : Column β) (i : Nat) (v : Value β) : Option (Column β) :=
  (c.kind.accept v).map fun t => ⟨c.kind, c.slots.data.set i t, c.slots.validity.set i true, by simp [c.slots.sizes]⟩

def appendVal (c : Column β) (v : Value β) : Option (Column β) :=
  (c.kind.accept v).map fun t => ⟨c.kind, c.slots.data ++ [t], c.slots.validity ++ [true], by simp [c.slots.sizes]⟩

def appendAbsent (c : Column β) : Column β :=
  ⟨c.kind, c.slots.data ++ [c.kind.zero], c.slots.validity ++ [false], by simp [c.slots.sizes]⟩

/-- `compactAny` or `compactTyped`, and `compactBool`. -/
def removeByBitmap (c : Column β) (bitmap : List Bool) (kept : Nat) : Column β :=
  ⟨c.kind, InPlace.compact c.kind.zero bitmap kept c.slots.data, InPlace.compact false bitmap kept c.slots.validity,
    by simp⟩

/-- The column permuted, and `visited` as the walk leaves it. -/
def reorder (c : Column β) (order : List Int) (visited : List Bool) : Column β × List Bool :=
  let walked := InPlace.reorderBoth (order.map Int.toNat) c.slots.data c.slots.validity visited
  (⟨c.kind, walked.1, walked.2.1, by
    have hlen := InPlace.length_reorderBoth (order.map Int.toNat) c.slots.data c.slots.validity visited
    exact hlen.2.trans (c.slots.sizes.trans hlen.1.symm)⟩, walked.2.2)

/-- The window's values: a slice of the boxed ones, or boxed one by one. -/
def view : Column β → (offset count : Nat) → List (Value β)
  | ⟨.json, s⟩, offset, count => (s.data.drop offset).take count
  | ⟨k, s⟩, offset, count => (List.range count).map fun i =>
    if s.validity.getD (offset + i) false then (s.data[offset + i]?.map k.box).getD .nil else .nil

def toJSON : Column β → Column β
  | ⟨.json, s⟩ => ⟨.json, s⟩
  | ⟨k, s⟩ => ⟨.json, List.zipWith (fun x present => if present then k.box x else .nil) s.data s.validity, s.validity,
      by simp [s.sizes]⟩

/-- `float64Window`. -/
def float64Window : Column β → (offset count : Nat) → Option (List Binary64)
  | ⟨.float64, s⟩, offset, count =>
    if (List.range' offset count).all fun i => s.validity.getD i false then some ((s.data.drop offset).take count)
    else none
  | _, _, _ => none

/-- Set, in the promoted column when this one does not take the value. -/
def setOrPromote (c : Column β) (i : Nat) (v : Value β) : Column β :=
  match c.set i v with
  | some c => c
  | none => (c.toJSON.set i v).getD c.toJSON

/-- Append, to the promoted column when this one does not take the value. -/
def appendOrPromote (c : Column β) (v : Value β) : Column β :=
  match c.appendVal v with
  | some c => c
  | none => (c.toJSON.appendVal v).getD c.toJSON

end Column

/-- `newColumnForValue`. -/
def newColumnForValue (v : Value β) (n : Nat) : Column β := .blank (.ofValue v) n

/-- The probe of `makeColumn`: nothing is the unknown kind, and the scan stops at a column of boxed values. -/
def probeFrom : Option Kind → List (Option (Value β)) → Option Kind
  | kind, [] => kind
  | kind, none :: vs => probeFrom kind vs
  | none, some v :: vs => if Kind.ofValue v = .json then some .json else probeFrom (some (Kind.ofValue v)) vs
  | some k, some v :: vs => if k = Kind.ofValue v ∧ k ≠ .json then probeFrom (some k) vs else some .json

/-- `makeColumn`, on the field's value in each item. An append that fails is ignored. -/
def makeColumn (values : List (Option (Value β))) : Column β :=
  values.foldl (fun col v? => match v? with
    | some v => (col.appendVal v).getD col
    | none => col.appendAbsent) (.blank ((probeFrom none values).getD .json) 0)

/-! ## The cells of a column -/

/-- Data and presence bits stand for these cells: a present one holds its element, an absent one the zero. -/
structure Stands {α : Type} (zero : α) (data : List α) (validity : List Bool) (xs : List (Option α)) : Prop where
  data : data = xs.map (·.getD zero)
  validity : validity = xs.map Option.isSome

namespace Stands
variable {α γ : Type} {zero : α} {data : List α} {validity : List Bool} {xs : List (Option α)}

theorem blank (zero : α) (n : Nat) :
    Stands zero (List.replicate n zero) (List.replicate n false) (List.replicate n none) :=
  ⟨by simp, by simp⟩

theorem adopt (zero : α) (vals : List α) : Stands zero vals (List.replicate vals.length true) (vals.map some) :=
  ⟨by simp, by simp [Function.comp_def]⟩

theorem length_data (h : Stands zero data validity xs) : data.length = xs.length := by
  rw [h.data, List.length_map]

theorem length_validity (h : Stands zero data validity xs) : validity.length = xs.length := by
  rw [h.validity, List.length_map]

theorem set (h : Stands zero data validity xs) (i : Nat) (x : α) :
    Stands zero (data.set i x) (validity.set i true) (xs.set i (some x)) := by
  refine ⟨?_, ?_⟩
  · rw [h.data, List.map_set]
    rfl
  · rw [h.validity, List.map_set]
    rfl

theorem append (h : Stands zero data validity xs) (x? : Option α) :
    Stands zero (data ++ [x?.getD zero]) (validity ++ [x?.isSome]) (xs ++ [x?]) := by
  refine ⟨?_, ?_⟩
  · rw [h.data, List.map_append]
    rfl
  · rw [h.validity, List.map_append]
    rfl

theorem compact (h : Stands zero data validity xs) {bitmap : List Bool} {kept : Nat}
    (hlen : bitmap.length = xs.length) (hkept : (InPlace.keptSlots bitmap).length = kept) :
    Stands zero (InPlace.compact zero bitmap kept data) (InPlace.compact false bitmap kept validity)
      (InPlace.gather (InPlace.keptSlots bitmap) xs) := by
  refine ⟨?_, ?_⟩
  · rw [← InPlace.gather_map, ← h.data]
    exact InPlace.compact_eq _ _ _ _ (hlen.trans h.length_data.symm) hkept
  · rw [← InPlace.gather_map, ← h.validity]
    exact InPlace.compact_eq _ _ _ _ (hlen.trans h.length_validity.symm) hkept

theorem reorder (h : Stands zero data validity xs) {order : List Nat} {visited : List Bool}
    (ho : InPlace.IsOrder order) (hlen : xs.length = order.length) (hvisited : visited.length ≤ order.length) :
    Stands zero (InPlace.reorderBoth order data validity visited).1
      (InPlace.reorderBoth order data validity visited).2.1 (InPlace.gather order xs) := by
  have hdata : data.length = order.length := h.length_data.trans hlen
  have hvalid : validity.length = order.length := h.length_validity.trans hlen
  obtain ⟨hxs, hys, -⟩ := InPlace.reorderBoth_eq hdata hvalid hvisited
  refine ⟨?_, ?_⟩
  · rw [← InPlace.gather_map, ← h.data, ← InPlace.reorder_eq ho hdata]
    exact hxs
  · rw [← InPlace.gather_map, ← h.validity, ← InPlace.reorder_eq ho hvalid]
    exact hys

/-- Every present element boxed, every absent one replaced by the zero of the boxes. -/
theorem boxed (h : Stands zero data validity xs) (box : α → γ) (nil : γ) :
    Stands nil (List.zipWith (fun x present => if present then box x else nil) data validity) validity
      (xs.map (Option.map box)) := by
  refine ⟨?_, ?_⟩
  · rw [h.data, h.validity, List.zipWith_map, List.zipWith_self, List.map_map]
    refine List.map_congr_left fun x? _ => ?_
    cases x? <;> rfl
  · rw [h.validity, List.map_map]
    refine List.map_congr_left fun x? _ => ?_
    cases x? <;> rfl

/-- What a slot holds, and whether it is present. -/
theorem slot (h : Stands zero data validity xs) (i : Nat) :
    data[i]? = xs[i]?.map (·.getD zero) ∧ validity.getD i false = (xs.getD i none).isSome := by
  rw [h.data, h.validity, List.getElem?_map, List.getD_eq_getElem?_getD, List.getD_eq_getElem?_getD,
    List.getElem?_map]
  refine ⟨rfl, ?_⟩
  cases xs[i]? <;> rfl

end Stands

namespace Column

theorem isSome_set (c : Column β) (i : Nat) (v : Value β) : (c.set i v).isSome = (c.kind.accept v).isSome :=
  Option.isSome_map ..

theorem isSome_appendVal (c : Column β) (v : Value β) : (c.appendVal v).isSome = (c.kind.accept v).isSome :=
  Option.isSome_map ..

/-- The column stands for these cells, nothing being absence. -/
def Holds (c : Column β) (cells : List (Option (Value β))) : Prop :=
  ∃ xs, Stands c.kind.zero c.slots.data c.slots.validity xs ∧ cells = xs.map (Option.map c.kind.box)

namespace Holds
variable {c : Column β} {cells : List (Option (Value β))}

theorem blank (k : Kind) (n : Nat) : (Column.blank k n : Column β).Holds (List.replicate n none) :=
  ⟨_, .blank _ n, by simp⟩

theorem adoptFloat64 (vals : List Binary64) :
    (Column.adoptFloat64 vals : Column β).Holds (vals.map fun d => some (.float64 d)) := by
  refine ⟨vals.map some, Stands.adopt _ vals, ?_⟩
  exact (List.map_map (f := some) (g := Option.map Value.float64)).symm

theorem length_data (h : c.Holds cells) : c.slots.data.length = cells.length := by
  obtain ⟨xs, hs, rfl⟩ := h
  rw [hs.length_data, List.length_map]

theorem length_validity (h : c.Holds cells) : c.slots.validity.length = cells.length :=
  c.slots.sizes.trans h.length_data

/-- Promotion keeps every cell. -/
theorem toJSON (h : c.Holds cells) : c.toJSON.Holds cells ∧ c.toJSON.kind = .json := by
  obtain ⟨xs, hs, rfl⟩ := h
  obtain ⟨k, s⟩ := c
  have hbox : ∀ ys : List (Option (Value β)), ys = ys.map (Option.map (Kind.box (β := β) .json)) := by
    intro ys
    refine (List.map_id ys).symm.trans (List.map_congr_left fun y? _ => ?_)
    cases y? <;> rfl
  cases k with
  | json => exact ⟨⟨xs, hs, rfl⟩, rfl⟩
  | float64 => exact ⟨⟨_, hs.boxed (Kind.box .float64) Value.nil, hbox _⟩, rfl⟩
  | string => exact ⟨⟨_, hs.boxed (Kind.box .string) Value.nil, hbox _⟩, rfl⟩
  | bool => exact ⟨⟨_, hs.boxed (Kind.box .bool) Value.nil, hbox _⟩, rfl⟩

theorem set (h : c.Holds cells) {i : Nat} {v : Value β} {c' : Column β} (hset : c.set i v = some c') :
    c'.Holds (cells.set i (some v)) := by
  obtain ⟨xs, hs, rfl⟩ := h
  obtain ⟨x, hx, rfl⟩ := Option.map_eq_some_iff.mp hset
  refine ⟨xs.set i (some x), hs.set i x, ?_⟩
  rw [List.map_set]
  exact congrArg (fun w => (xs.map (Option.map c.kind.box)).set i (some w)) (Kind.box_accept hx).symm

theorem appendVal (h : c.Holds cells) {v : Value β} {c' : Column β} (happ : c.appendVal v = some c') :
    c'.Holds (cells ++ [some v]) := by
  obtain ⟨xs, hs, rfl⟩ := h
  obtain ⟨x, hx, rfl⟩ := Option.map_eq_some_iff.mp happ
  refine ⟨xs ++ [some x], hs.append (some x), ?_⟩
  rw [List.map_append]
  exact congrArg (fun w => xs.map (Option.map c.kind.box) ++ [some w]) (Kind.box_accept hx).symm

theorem appendAbsent (h : c.Holds cells) : c.appendAbsent.Holds (cells ++ [none]) := by
  obtain ⟨xs, hs, rfl⟩ := h
  exact ⟨xs ++ [none], hs.append none, (@List.map_append _ _ (Option.map c.kind.box) xs [none]).symm⟩

theorem setOrPromote (h : c.Holds cells) (i : Nat) (v : Value β) :
    (c.setOrPromote i v).Holds (cells.set i (some v)) := by
  unfold Column.setOrPromote
  split
  · next c' hset => exact h.set hset
  · obtain ⟨hjson, hkind⟩ := h.toJSON
    have hsome : (c.toJSON.set i v).isSome = true := by
      rw [isSome_set, hkind]
      rfl
    obtain ⟨c', hc'⟩ := Option.isSome_iff_exists.mp hsome
    rw [hc']
    exact hjson.set hc'

theorem appendOrPromote (h : c.Holds cells) (v : Value β) : (c.appendOrPromote v).Holds (cells ++ [some v]) := by
  unfold Column.appendOrPromote
  split
  · next c' happ => exact h.appendVal happ
  · obtain ⟨hjson, hkind⟩ := h.toJSON
    have hsome : (c.toJSON.appendVal v).isSome = true := by
      rw [isSome_appendVal, hkind]
      rfl
    obtain ⟨c', hc'⟩ := Option.isSome_iff_exists.mp hsome
    rw [hc']
    exact hjson.appendVal hc'

theorem removeByBitmap (h : c.Holds cells) {bitmap : List Bool} {kept : Nat} (hlen : bitmap.length = cells.length)
    (hkept : (InPlace.keptSlots bitmap).length = kept) :
    (c.removeByBitmap bitmap kept).Holds (InPlace.gather (InPlace.keptSlots bitmap) cells) := by
  obtain ⟨xs, hs, rfl⟩ := h
  rw [List.length_map] at hlen
  exact ⟨_, hs.compact hlen hkept, InPlace.gather_map ..⟩

/-- The column is permuted, and hands on a buffer of the length it was given room for. -/
theorem reorder (h : c.Holds cells) {order : List Int} {visited : List Bool}
    (ho : InPlace.IsOrder (order.map Int.toNat)) (hlen : cells.length = order.length)
    (hvisited : visited.length ≤ order.length) :
    (c.reorder order visited).1.Holds (InPlace.gather (order.map Int.toNat) cells) ∧
      (c.reorder order visited).2.length ≤ order.length := by
  obtain ⟨xs, hs, rfl⟩ := h
  rw [List.length_map] at hlen
  have hvisited' : visited.length ≤ (order.map Int.toNat).length := by rwa [List.length_map]
  have hlen' : xs.length = (order.map Int.toNat).length := by rwa [List.length_map]
  refine ⟨⟨_, hs.reorder ho hlen' hvisited', InPlace.gather_map ..⟩, ?_⟩
  have hdata := hs.length_data.trans hlen'
  obtain ⟨-, -, hmarks⟩ := InPlace.reorderBoth_eq hdata (c.slots.sizes.trans hdata) hvisited'
  rw [List.length_map] at hmarks
  exact Nat.le_of_eq hmarks

/-- What the buffer held before does not show in the column. -/
theorem reorder_buffer (h : c.Holds cells) {order : List Int} {visited visited' : List Bool}
    (hlen : cells.length = order.length) (hvisited : visited.length ≤ order.length)
    (hvisited' : visited'.length ≤ order.length) : (c.reorder order visited).1 = (c.reorder order visited').1 := by
  have hext : ∀ {data data' : List (c.kind.Elem β)} {validity validity' : List Bool}
      (hs : validity.length = data.length) (hs' : validity'.length = data'.length), data = data' →
      validity = validity' → (⟨c.kind, data, validity, hs⟩ : Column β) = ⟨c.kind, data', validity', hs'⟩ := by
    rintro _ _ _ _ _ _ rfl rfl
    rfl
  have hdata : c.slots.data.length = (order.map Int.toNat).length := by rw [h.length_data, hlen, List.length_map]
  have hvalid : c.slots.validity.length = (order.map Int.toNat).length := c.slots.sizes.trans hdata
  have hwalk := InPlace.reorderBoth_eq hdata hvalid ((List.length_map Int.toNat).symm ▸ hvisited)
  have hwalk' := InPlace.reorderBoth_eq hdata hvalid ((List.length_map Int.toNat).symm ▸ hvisited')
  exact hext _ _ (hwalk.1.trans hwalk'.1.symm) (hwalk.2.1.trans hwalk'.2.1.symm)

/-- The three reads of a slot. -/
theorem reads (h : c.Holds cells) (i : Nat) :
    c.present i = (cells.getD i none).isSome ∧ c.get i = (cells.getD i none).getD .nil ∧
      c.isNull i = ((cells.getD i none).getD .nil).isNil := by
  obtain ⟨xs, hs, rfl⟩ := h
  obtain ⟨k, s⟩ := c
  have hdata : s.data[i]? = xs[i]?.map (·.getD k.zero) := (hs.slot i).1
  have hvalid : s.validity.getD i false = (xs[i]?.getD none).isSome :=
    (hs.slot i).2.trans (congrArg Option.isSome List.getD_eq_getElem?_getD)
  have hcell : (xs.map (Option.map k.box)).getD i none = (xs[i]?.getD none).map k.box := by
    simp only [List.getD_eq_getElem?_getD, List.getElem?_map]
    cases xs[i]? <;> rfl
  rw [hcell]
  refine ⟨hvalid.trans Option.isSome_map.symm, ?_⟩
  by_cases hk : k = .json
  · subst hk
    have hget : s.data.getD i .nil = ((xs[i]?.getD none).map (Kind.box (β := β) .json)).getD .nil := by
      rw [List.getD_eq_getElem?_getD]
      refine (congrArg (·.getD Value.nil) hdata).trans ?_
      rcases xs[i]? with _ | _ | v <;> rfl
    refine ⟨hget, ?_⟩
    show (!s.validity.getD i false || (s.data.getD i Value.nil).isNil) = _
    rw [hget, hvalid]
    rcases xs[i]? with _ | _ | v <;> rfl
  · have hget : Column.get ⟨k, s⟩ i = if s.validity.getD i false then (s.data[i]?.map k.box).getD .nil else .nil := by
      cases k <;> first | rfl | exact absurd rfl hk
    have hnull : Column.isNull ⟨k, s⟩ i = !s.validity.getD i false := by
      cases k <;> first | rfl | exact absurd rfl hk
    rw [hget, hnull, hvalid, hdata]
    rcases hx : xs[i]? with _ | _ | x
    · exact ⟨rfl, rfl⟩
    · exact ⟨rfl, rfl⟩
    · exact ⟨rfl, (Kind.isNil_box hk x).symm ▸ rfl⟩

end Holds

/-! ## Windows -/

/-- A window's values are the slots' values. -/
theorem view_eq {c : Column β} {offset count : Nat} (hfits : offset + count ≤ c.len) :
    c.view offset count = (List.range count).map fun i => c.get (offset + i) := by
  obtain ⟨k, s⟩ := c
  by_cases hk : k = .json
  · subst hk
    refine List.ext_getElem? fun i => ?_
    show ((s.data.drop offset).take count)[i]? = ((List.range count).map fun i => s.data.getD (offset + i) .nil)[i]?
    rw [List.getElem?_take, List.getElem?_map]
    by_cases hi : i < count
    · have hlt : offset + i < s.data.length := by
        have : offset + count ≤ s.data.length := hfits
        omega
      rw [if_pos hi, List.getElem?_drop, List.getElem?_range hi, List.getElem?_eq_getElem hlt]
      simp [hlt]
    · rw [if_neg hi, List.getElem?_eq_none (by simpa using hi)]
      rfl
  · cases k <;> first | rfl | exact absurd rfl hk

/-- A raw window is offered of a `float64` column that has every slot of it, and boxes to the slots' values. -/
theorem float64Window_eq {c : Column β} {offset count : Nat} {vals : List Binary64} (hfits : offset + count ≤ c.len)
    (h : c.float64Window offset count = some vals) :
    vals.map Value.float64 = (List.range count).map fun i => c.get (offset + i) := by
  obtain ⟨k, s⟩ := c
  cases k with
  | float64 =>
    have h : (if (List.range' offset count).all fun i => s.validity.getD i false then
        some ((s.data.drop offset).take count) else none) = some vals := h
    split at h
    · next hall =>
      have hlen : offset + count ≤ s.data.length := hfits
      rw [← Option.some.inj h]
      refine List.ext_getElem? fun i => ?_
      rw [List.getElem?_map, List.getElem?_map, List.getElem?_take]
      by_cases hi : i < count
      · have hlt : offset + i < s.data.length := by omega
        have hpresent : s.validity.getD (offset + i) false = true := by
          refine List.all_eq_true.mp hall _ (List.mem_range'_1.mpr ?_)
          omega
        rw [if_pos hi, List.getElem?_drop, List.getElem?_range hi, List.getElem?_eq_getElem hlt]
        show some (Value.float64 _) =
          some (if s.validity.getD (offset + i) false then (s.data[offset + i]?.map Value.float64).getD .nil else .nil)
        rw [if_pos hpresent, List.getElem?_eq_getElem hlt]
        rfl
      · rw [if_neg hi, List.getElem?_eq_none (by simpa using hi)]
        rfl
    · exact absurd h nofun
  | json => exact absurd h nofun
  | string => exact absurd h nofun
  | bool => exact absurd h nofun

end Column

/-! ## The first column of a field -/

/-- The probe settles on a kind that every value has, or on boxed values. -/
theorem probeFrom_accepts {vs : List (Option (Value β))} {kind? : Option Kind} {k : Kind}
    (h : probeFrom kind? vs = some k) : (∀ k', kind? = some k' → k' = k ∨ k = .json) ∧
      ∀ v, some v ∈ vs → (k.accept v).isSome = true := by
  induction vs generalizing kind? with
  | nil =>
    refine ⟨fun k' hk' => ?_, fun v hv => absurd hv List.not_mem_nil⟩
    rw [probeFrom, hk'] at h
    exact .inl (Option.some.inj h)
  | cons v? vs ih =>
    cases v? with
    | none =>
      obtain ⟨hkind, hall⟩ := ih (show probeFrom kind? vs = some k by cases kind? <;> exact h)
      refine ⟨hkind, fun v hv => hall v ?_⟩
      simpa using hv
    | some v =>
      -- boxed values take everything
      have hjson : some Kind.json = some k → (∀ k', kind? = some k' → k' = k ∨ k = .json) ∧
          ∀ w, some w ∈ some v :: vs → (k.accept w).isSome = true := by
        intro hk
        obtain rfl := Option.some.inj hk
        exact ⟨fun _ _ => .inr rfl, fun _ _ => rfl⟩
      have hrest : probeFrom (some (Kind.ofValue v)) vs = some k →
          (Kind.ofValue v = k ∨ k = .json) ∧ ∀ w, some w ∈ some v :: vs → (k.accept w).isSome = true := by
        intro hk
        obtain ⟨hkind, hall⟩ := ih hk
        refine ⟨hkind _ rfl, fun w hw => ?_⟩
        rcases List.mem_cons.mp hw with hw | hw
        · obtain rfl := Option.some.inj hw
          rcases hkind _ rfl with heq | heq
          · exact heq ▸ Kind.accept_ofValue w
          · exact heq ▸ rfl
        · exact hall w hw
      cases kind? with
      | none =>
        rw [probeFrom] at h
        split at h
        · exact hjson h
        · exact ⟨fun k' hk' => (by simp at hk'), (hrest h).2⟩
      | some k₀ =>
        rw [probeFrom] at h
        split at h
        · next heq =>
          rw [heq.1] at h
          refine ⟨fun k' hk' => ?_, (hrest h).2⟩
          rw [← Option.some.inj hk', heq.1]
          exact (hrest h).1
        · exact hjson h

/-- The first column of a field holds the items' values. -/
theorem makeColumn_holds (values : List (Option (Value β))) : (makeColumn values).Holds values := by
  have H : ∀ (vs : List (Option (Value β))) (c : Column β) (cells : List (Option (Value β))),
      (∀ v, some v ∈ vs → (c.kind.accept v).isSome = true) → c.Holds cells →
      (vs.foldl (fun col v? => match v? with
        | some v => (col.appendVal v).getD col
        | none => col.appendAbsent) c).Holds (cells ++ vs) := by
    intro vs
    induction vs with
    | nil => exact fun c cells _ h => (List.append_nil cells).symm ▸ h
    | cons v? vs ih =>
      intro c cells haccept h
      have hrest : ∀ v, some v ∈ vs → (c.kind.accept v).isSome = true := fun v hv =>
        haccept v (List.mem_cons_of_mem _ hv)
      rw [List.foldl_cons, List.append_cons]
      cases v? with
      | none => exact ih c.appendAbsent _ hrest h.appendAbsent
      | some v =>
        have hsome := (Column.isSome_appendVal c v).trans (haccept v List.mem_cons_self)
        obtain ⟨c', hc'⟩ := Option.isSome_iff_exists.mp hsome
        have hkind : c'.kind = c.kind := by
          obtain ⟨x, -, rfl⟩ := Option.map_eq_some_iff.mp hc'
          rfl
        dsimp only
        rw [hc']
        exact ih c' _ (hkind.symm ▸ hrest) (h.appendVal hc')
  refine H values _ [] (fun v hv => ?_) (.blank _ 0)
  show (((probeFrom none values).getD .json).accept v).isSome = true
  cases hprobe : probeFrom none values with
  | none => rfl
  | some k => exact (probeFrom_accepts hprobe).2 v hv

end Pineapple.GoColumns
