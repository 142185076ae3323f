import Pineapple.ColumnFrame

/-! # What columns hold

`Column.cell` is what a reader can tell of a slot: nothing when it is absent, its value otherwise.
Every operation of a column and of the store is described by the cells it leaves. A cell reads the
value that was written, but for one value: a negative zero in an `int64` column reads positive. -/

namespace Pineapple

namespace ColumnType

/-- What a column of type `t` reads back for a value it took. -/
def readBack (t : ColumnType) (v : Variant) : Variant :=
  if t = .int64 ∧ v = .number .negZero then .number .zero else v

theorem int64_readBack {v : Variant} {i : Int} (h : int64Codec.encode v = some i) :
    int64Codec.decode i = readBack .int64 v := by
  simp only [int64Codec] at h ⊢
  split at h
  · next hint =>
    split at h
    · next f =>
      rw [← Option.some.inj h, readBack]
      have hf : f.IsIntegral := by
        simp only [Variant.isIntegralNumber, decide_eq_true_eq] at hint
        exact hint.1
      by_cases h0 : f = FiniteBinary64.zero true
      · subst h0
        rw [if_pos ⟨rfl, rfl⟩, FiniteBinary64.toInt_zero]
        rfl
      · rw [if_neg (by simpa [Binary64.negZero] using h0), FiniteBinary64.ofInt_toInt hf h0]
    · exact absurd h (by simp)
  · exact absurd h (by simp)

/-- A stored value reads back. -/
theorem decode_encode (t : ColumnType) {v : Variant} {x : t.Elem} (h : t.codec.encode v = some x) :
    t.codec.decode x = t.readBack v := by
  cases t with
  | int64 => exact int64_readBack h
  | double => cases v <;> simp_all [codec, doubleCodec, readBack]
  | string => cases v <;> simp_all [codec, stringCodec, readBack]
  | bool => cases v <;> simp_all [codec, boolCodec, readBack]
  | json => simp_all [codec, jsonCodec, readBack]

theorem encode_int64 (v : Variant) : (int64Codec.encode v).isSome = v.isIntegralNumber := by
  cases v with
  | number d =>
    cases d with
    | finite f => by_cases h : (Variant.number (.finite f)).isIntegralNumber <;> simp [int64Codec, h]
    | _ => rfl
  | _ => rfl

theorem isIntegralNumber_negZero : (Variant.number .negZero).isIntegralNumber = true := by decide +kernel

theorem readBack_of_encode_none {t : ColumnType} {v : Variant} (h : t.codec.encode v = none) : t.readBack v = v := by
  rw [readBack]
  split
  · next hv =>
    obtain ⟨rfl, rfl⟩ := hv
    have := encode_int64 (.number .negZero)
    rw [isIntegralNumber_negZero] at this
    exact absurd h (Option.ne_none_iff_isSome.mpr this)
  · rfl

@[simp] theorem readBack_json (v : Variant) : json.readBack v = v := by simp [readBack]

@[simp] theorem readBack_null (t : ColumnType) : t.readBack .null = .null := by simp [readBack]

theorem decode_ne_null {t : ColumnType} (h : t ≠ .json) (x : t.Elem) : (t.codec.decode x).isNull = false := by
  cases t <;> first | rfl | exact absurd rfl h

theorem encode_null {t : ColumnType} (h : t ≠ .json) : t.codec.encode .null = none := by
  cases t <;> first | rfl | exact absurd rfl h

end ColumnType

/-! ## Typed columns -/

namespace TypedColumn
variable {α : Type}

/-- The slot as a value with its presence. -/
def cell (codec : CellCodec α) (c : TypedColumn α) (i : Nat) : Option Variant :=
  if c.isPresent i then some (c.get codec i) else none

theorem cell_eq (codec : CellCodec α) (c : TypedColumn α) (i : Nat) :
    c.cell codec i = if c.validity[i]? = some true then c.data[i]?.map codec.decode else none := by
  rw [cell, get, isPresent, List.getD_eq_getElem?_getD]
  by_cases hi : i < c.data.length
  · have hv : i < c.validity.length := c.sizes ▸ hi
    rw [List.getElem?_eq_getElem hi, List.getElem?_eq_getElem hv]
    cases c.validity[i] <;> simp
  · have hv : ¬ i < c.validity.length := c.sizes ▸ hi
    rw [List.getElem?_eq_none (by omega), List.getElem?_eq_none (by omega)]
    simp

theorem cell_of_size_le (codec : CellCodec α) {c : TypedColumn α} {i : Nat} (h : c.size ≤ i) :
    c.cell codec i = none := by
  have hv : c.validity.length ≤ i := c.sizes ▸ h
  rw [cell_eq, List.getElem?_eq_none hv]
  simp

theorem cell_append (codec : CellCodec α) {c c' : TypedColumn α} {v : Variant} (h : c.append codec v = some c')
    (i : Nat) : c'.cell codec i = if i = c.size then (codec.encode v).map codec.decode else c.cell codec i := by
  rw [append, Option.map_eq_some_iff] at h
  obtain ⟨x, hx, rfl⟩ := h
  have hs := c.sizes
  simp only [cell_eq, hx, size]
  rcases Nat.lt_trichotomy i c.data.length with hi | hi | hi
  · rw [if_neg (Nat.ne_of_lt hi), List.getElem?_append_left hi, List.getElem?_append_left (hs ▸ hi)]
  · subst hi
    rw [if_pos rfl, List.getElem?_concat_length, ← hs, List.getElem?_concat_length]
    simp
  · rw [if_neg (Nat.ne_of_gt hi), List.getElem?_eq_none (l := c.data ++ [x]) (by simp; omega),
      List.getElem?_eq_none (l := c.data) (Nat.le_of_lt hi)]
    simp

theorem cell_appendNull (codec : CellCodec α) (c : TypedColumn α) (i : Nat) :
    (c.appendNull codec).cell codec i = c.cell codec i := by
  have hs := c.sizes
  simp only [cell_eq, appendNull]
  rcases Nat.lt_trichotomy i c.data.length with hi | hi | hi
  · rw [List.getElem?_append_left hi, List.getElem?_append_left (hs ▸ hi)]
  · subst hi
    rw [← hs, List.getElem?_concat_length, List.getElem?_eq_none (Nat.le_refl _)]
    simp
  · rw [List.getElem?_eq_none (l := c.data ++ [codec.blank]) (by simp; omega),
      List.getElem?_eq_none (l := c.data) (Nat.le_of_lt hi)]
    simp

theorem cell_set (codec : CellCodec α) {c c' : TypedColumn α} {i : Nat} {v : Variant}
    (h : c.set codec i v = some c') (j : Nat) :
    c'.cell codec j = if j = i then (codec.encode v).map codec.decode else c.cell codec j := by
  rw [set] at h
  split at h
  · exact absurd h (by simp)
  · next x hx =>
    split at h
    · next hi =>
      rw [← Option.some.inj h]
      have hi' : i < c.validity.length := c.sizes ▸ hi
      simp only [cell_eq, hx, List.getElem?_set]
      by_cases hj : j = i
      · subst hj
        have hi : j < c.data.length := hi
        simp [hi, hi']
      · simp [hj, Ne.symm hj]
    · exact absurd h (by simp)

theorem isSome_set (codec : CellCodec α) {c : TypedColumn α} {i : Nat} (v : Variant) (hi : i < c.size) :
    (c.set codec i v).isSome = (codec.encode v).isSome := by
  rw [set]
  split
  · next h => simp [h]
  · next h => simp [h, hi]

theorem cell_toJsonColumn (codec : CellCodec α) (c : TypedColumn α) (i : Nat) :
    (c.toJsonColumn codec).cell ColumnType.jsonCodec i = c.cell codec i := by
  simp only [cell_eq, toJsonColumn, List.getElem?_zipWith, ColumnType.jsonCodec]
  by_cases hv : c.validity[i]? = some true
  · simp only [hv, if_true]
    cases c.data[i]? <;> rfl
  · simp [hv]

theorem cell_removeWithBitmap (codec : CellCodec α) (c : TypedColumn α) {bitmap : List Bool} {kept : Nat}
    (hlen : bitmap.length = c.size) (hkept : (InPlace.keptSlots bitmap).length = kept) (k : Nat) :
    (c.removeWithBitmap codec bitmap kept).cell codec k =
      (InPlace.keptSlots bitmap)[k]?.bind (c.cell codec) := by
  have hdata : (c.removeWithBitmap codec bitmap kept).data = InPlace.gather (InPlace.keptSlots bitmap) c.data :=
    InPlace.compact_eq codec.blank bitmap kept c.data hlen hkept
  have hvalid : (c.removeWithBitmap codec bitmap kept).validity =
      InPlace.gather (InPlace.keptSlots bitmap) c.validity :=
    InPlace.compact_eq false bitmap kept c.validity (hlen.trans c.sizes.symm) hkept
  have hlt : ∀ j ∈ InPlace.keptSlots bitmap, j < c.size := fun j hj =>
    hlen ▸ InPlace.lt_of_mem_keptSlots hj
  rw [cell_eq, hdata, hvalid, InPlace.getElem?_gather hlt,
    InPlace.getElem?_gather fun j hj => c.sizes.symm ▸ hlt j hj]
  cases (InPlace.keptSlots bitmap)[k]? with
  | none => simp
  | some j => exact (cell_eq codec c j).symm

theorem cell_reorder (codec : CellCodec α) (c : TypedColumn α) {order : List Int}
    (ho : InPlace.IsOrder (order.map Int.toNat)) (hlen : order.length = c.size) (k : Nat) :
    (c.reorder order).cell codec k = (order.map Int.toNat)[k]?.bind (c.cell codec) := by
  have hlen' : c.size = (order.map Int.toNat).length := by rw [List.length_map, hlen]
  have hlt : ∀ j ∈ order.map Int.toNat, j < c.size := fun j hj => hlen' ▸ ho.lt j hj
  have hdata : (c.reorder order).data = InPlace.gather (order.map Int.toNat) c.data := InPlace.reorder_eq ho hlen'
  have hvalid : (c.reorder order).validity = InPlace.gather (order.map Int.toNat) c.validity :=
    InPlace.reorder_eq ho (c.sizes.trans hlen')
  rw [cell_eq, hdata, hvalid, InPlace.getElem?_gather hlt,
    InPlace.getElem?_gather fun j hj => c.sizes.symm ▸ hlt j hj]
  cases (order.map Int.toNat)[k]? with
  | none => simp
  | some j => exact (cell_eq codec c j).symm

end TypedColumn

/-! ## Columns -/

namespace Column

def cell (c : Column) (i : Nat) : Option Variant := c.col.cell c.type.codec i

theorem isPresent_eq (c : Column) (i : Nat) : c.isPresent i = (c.cell i).isSome := by
  rw [cell, TypedColumn.cell, isPresent]
  split <;> simp_all

theorem get_eq (c : Column) (i : Nat) : c.get i = (c.cell i).getD .null := by
  rw [cell, TypedColumn.cell, get, TypedColumn.get]
  split <;> rfl

theorem isNull_eq (c : Column) (i : Nat) : c.isNull i = ((c.cell i).map Variant.isNull).getD true := by
  obtain ⟨t, c⟩ := c
  rw [cell, TypedColumn.cell_eq]
  have hv : c.isPresent i = decide (c.validity[i]? = some true) := by
    rw [TypedColumn.isPresent, List.getD_eq_getElem?_getD]
    cases c.validity[i]? with
    | none => rfl
    | some b => cases b <;> rfl
  by_cases hp : c.validity[i]? = some true
  · rw [if_pos hp]
    have hi : i < c.data.length := by
      rw [← c.sizes]
      exact (List.getElem?_eq_some_iff.mp hp).1
    rw [List.getElem?_eq_getElem hi]
    by_cases ht : t = .json
    · subst ht
      simp [isNull, hv, hp, TypedColumn.get, List.getElem?_eq_getElem hi, ColumnType.codec]
    · have hnn := ColumnType.decode_ne_null ht (c.data[i])
      simp only [Option.map_some, Option.getD_some, hnn]
      cases t <;> first | exact absurd rfl ht | simp [isNull, hv, hp]
  · rw [if_neg hp]
    cases t <;> simp [isNull, hv, hp]

theorem cell_of_size_le {c : Column} {i : Nat} (h : c.size ≤ i) : c.cell i = none :=
  TypedColumn.cell_of_size_le _ h

@[simp] theorem cell_blank (t : ColumnType) (n i : Nat) : (blank t n).cell i = none := by
  rw [cell, TypedColumn.cell_eq]
  simp [blank, TypedColumn.blank, List.getElem?_replicate]

@[simp] theorem cell_appendNull (c : Column) (i : Nat) : c.appendNull.cell i = c.cell i :=
  TypedColumn.cell_appendNull _ c.col i

@[simp] theorem cell_appendNulls (c : Column) (n i : Nat) : (c.appendNulls n).cell i = c.cell i := by
  induction n generalizing c with
  | zero => rfl
  | succ n ih => rw [appendNulls, ih, cell_appendNull]

@[simp] theorem cell_toJsonColumn (c : Column) (i : Nat) : c.toJsonColumn.cell i = c.cell i := by
  obtain ⟨t, c⟩ := c
  cases t <;> first | rfl | exact TypedColumn.cell_toJsonColumn _ c i

@[simp] theorem type_toJsonColumn (c : Column) : c.toJsonColumn.type = .json := by
  obtain ⟨t, c⟩ := c
  cases t <;> rfl

theorem cell_removeWithBitmap (c : Column) {bitmap : List Bool} {kept : Nat} (hlen : bitmap.length = c.size)
    (hkept : (InPlace.keptSlots bitmap).length = kept) (k : Nat) :
    (c.removeWithBitmap bitmap kept).cell k = (InPlace.keptSlots bitmap)[k]?.bind c.cell :=
  TypedColumn.cell_removeWithBitmap _ c.col hlen hkept k

theorem cell_reorder (c : Column) {order : List Int} (ho : InPlace.IsOrder (order.map Int.toNat))
    (hlen : order.length = c.size) (k : Nat) : (c.reorder order).cell k = (order.map Int.toNat)[k]?.bind c.cell :=
  TypedColumn.cell_reorder _ c.col ho hlen k

/-- What `set` does when the column takes the value. -/
theorem set_eq_some {c c' : Column} {i : Nat} {v : Variant} (h : c.set i v = some c') :
    c'.type = c.type ∧ c'.size = c.size ∧
      ∀ j, c'.cell j = if j = i then some (c.type.readBack v) else c.cell j := by
  obtain ⟨t, c⟩ := c
  rw [set, Option.map_eq_some_iff] at h
  obtain ⟨d, hd, rfl⟩ := h
  have hsome : ∃ x, t.codec.encode v = some x ∧ d.data.length = c.data.length := by
    rw [TypedColumn.set] at hd
    split at hd
    · exact absurd hd (by simp)
    · next x hx =>
      split at hd
      · rw [← Option.some.inj hd]; exact ⟨x, hx, by simp⟩
      · exact absurd hd (by simp)
  obtain ⟨x, hx, hlen⟩ := hsome
  refine ⟨rfl, hlen, fun j => ?_⟩
  have := TypedColumn.cell_set t.codec hd j
  rw [hx, Option.map_some, t.decode_encode hx] at this
  exact this

theorem isSome_set {c : Column} {i : Nat} (v : Variant) (hi : i < c.size) :
    (c.set i v).isSome = (c.type.codec.encode v).isSome := by
  rw [set, Option.isSome_map]
  exact TypedColumn.isSome_set _ v hi

/-- What one write leaves of a column. -/
theorem setOrPromote_spec {c : Column} {i : Nat} (v : Variant) (hi : i < c.size) :
    (c.setOrPromote i v).type = (if (c.type.codec.encode v).isSome then c.type else .json) ∧
      (c.setOrPromote i v).size = c.size ∧
      ∀ j, (c.setOrPromote i v).cell j = if j = i then some (c.type.readBack v) else c.cell j := by
  have hset := isSome_set v hi
  rw [setOrPromote]
  split
  · next c' h =>
    obtain ⟨ht, hs, hc⟩ := set_eq_some h
    rw [h] at hset
    rw [← hset]
    exact ⟨ht, hs, hc⟩
  · next h =>
    rw [h] at hset
    have henc : c.type.codec.encode v = none := by simpa using hset.symm
    have hjson : (c.toJsonColumn.set i v).isSome := by
      rw [isSome_set v (by simpa using hi), type_toJsonColumn]; rfl
    obtain ⟨d, hd⟩ := Option.isSome_iff_exists.mp hjson
    obtain ⟨ht, hs, hc⟩ := set_eq_some hd
    rw [hd, Option.getD_some, henc]
    refine ⟨by rw [ht, type_toJsonColumn]; rfl, by rw [hs, size_toJsonColumn], fun j => ?_⟩
    rw [hc, type_toJsonColumn, ColumnType.readBack_json, ColumnType.readBack_of_encode_none henc, cell_toJsonColumn]

/-- What `append` does when the column takes the value. -/
theorem append_eq_some {c c' : Column} {v : Variant} (h : c.append v = some c') :
    c'.type = c.type ∧ c'.size = c.size + 1 ∧
      ∀ j, c'.cell j = if j = c.size then some (c.type.readBack v) else c.cell j := by
  obtain ⟨t, c⟩ := c
  rw [append, Option.map_eq_some_iff] at h
  obtain ⟨d, hd, rfl⟩ := h
  have hcell := TypedColumn.cell_append t.codec hd
  rw [TypedColumn.append, Option.map_eq_some_iff] at hd
  obtain ⟨x, hx, rfl⟩ := hd
  refine ⟨rfl, by simp [size, TypedColumn.size], fun j => ?_⟩
  have := hcell j
  rw [hx, Option.map_some, t.decode_encode hx] at this
  exact this

theorem isSome_append (c : Column) (v : Variant) : (c.append v).isSome = (c.type.codec.encode v).isSome := by
  rw [append, Option.isSome_map, TypedColumn.append, Option.isSome_map]

theorem appendOrPromote_spec (c : Column) (v : Variant) :
    (c.appendOrPromote v).type = (if (c.type.codec.encode v).isSome then c.type else .json) ∧
      (c.appendOrPromote v).size = c.size + 1 ∧
      ∀ j, (c.appendOrPromote v).cell j = if j = c.size then some (c.type.readBack v) else c.cell j := by
  have happ := isSome_append c v
  rw [appendOrPromote]
  split
  · next c' h =>
    obtain ⟨ht, hs, hc⟩ := append_eq_some h
    rw [h] at happ
    rw [← happ]
    exact ⟨ht, hs, hc⟩
  · next h =>
    rw [h] at happ
    have henc : c.type.codec.encode v = none := by simpa using happ.symm
    have hjson : (c.toJsonColumn.append v).isSome := by
      rw [isSome_append, type_toJsonColumn]; rfl
    obtain ⟨d, hd⟩ := Option.isSome_iff_exists.mp hjson
    obtain ⟨ht, hs, hc⟩ := append_eq_some hd
    rw [hd, Option.getD_some, henc]
    refine ⟨by rw [ht, type_toJsonColumn]; rfl, by rw [hs, size_toJsonColumn], fun j => ?_⟩
    rw [hc, type_toJsonColumn, ColumnType.readBack_json, ColumnType.readBack_of_encode_none henc, cell_toJsonColumn,
      size_toJsonColumn]

end Column

end Pineapple
