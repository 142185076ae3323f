import Pineapple.GoMarshal
import Pineapple.Lib.Repeats

/-! # Deduplication (`merge_dedup`)

Values are told apart by a text with a prefix for their type. A zero loses its sign in a number, but not in the numbers
of an array or an object. -/

namespace Pineapple.Dedup

open Json (Bytes ascii)
open Reorder (utf8Bytes toJson column oneField)
open Variant (Stored jsonEqual)

/-! ## The keys -/

def tagged (tag : Char) (text : Bytes) : Bytes := ascii tag :: ascii ':' :: text

/-- `if (d == 0.0) d = 0.0`. -/
def canonical (d : Binary64) : Binary64 := if isZeroDouble d then .finite (.zero false) else d

/-- `dedup_key`. -/
def dedupKey : Variant → Bytes
  | .null => tagged 'N' []
  | .bool b => tagged 'B' [if b then ascii '1' else ascii '0']
  | .number d => tagged 'F' (utf8Bytes (goFormatG (canonical d)))
  | .string s => tagged 'S' (utf8Bytes s)
  | v => tagged 'O' (Json.dumpJson Json.toCharsBytes (fun _ => .compact) (toJson v) 0)

/-- `dedupKey` of Go; a value that cannot be marshalled is printed. -/
def goDedupKey : Variant → Bytes
  | .null => tagged 'N' []
  | .bool b => tagged 'B' [if b then ascii '1' else ascii '0']
  | .number x => tagged 'F' (utf8Bytes (formatFloat (canonical x)))
  | .string x => tagged 'S' (utf8Bytes x)
  | v => tagged 'O' ((goMarshal v).getD (utf8Bytes (goSprintValue v)))

/-! ## The operators -/

structure MergeDedup where
  field : String

/-- `MergeDedupOp::execute`. -/
def MergeDedup.execute (dedup : MergeDedup) (input : OperatorInput) : Except PineError OperatorOutput :=
  .ok (FrameStorage.removing (Repeats.repeats ((input.itemColumn dedup.field).map dedupKey)))

/-- The calls of `RemoveItem` by `DedupOp.Execute`. -/
def goRemoved (column : List Variant) : List Nat := Repeats.repeats (column.map goDedupKey)

/-! ## What they are for -/

/-- The slots of the values that equal none before them. -/
def firstOccurrences (vals : List Variant) : List Nat :=
  (List.range vals.length).filter fun i => ∀ j < i, jsonEqual (vals.getD j .null) (vals.getD i .null) = false

/-- Deduplication of a frame: keys stand for equal values, the first item of each value is left, a second run changes
nothing, and the Go operator removes the same items. -/
structure Deduplicates (dedup : MergeDedup) (op : String) (S : FrameStorage) (spec : InputFieldSpec) (s : FrameState S.σ) :
    Prop where
  identified : ∀ v ∈ column S spec s dedup.field, ∀ w ∈ column S spec s dedup.field,
    (dedupKey v = dedupKey w ↔ jsonEqual v w = true) ∧ (goDedupKey v = goDedupKey w ↔ jsonEqual v w = true)
  survivors : ∃ t, S.apply dedup.execute op spec s = .ok t ∧
    S.Gathered s (firstOccurrences (column S spec s dedup.field)) t ∧ t.common = s.common ∧
    (column S spec t dedup.field).Pairwise (fun v w => jsonEqual v w = false) ∧
    S.apply dedup.execute op spec t = .ok t
  go : dedup.execute (S.input spec s) = .ok (FrameStorage.removing (goRemoved (column S spec s dedup.field)))

/-! ## Keys of values -/

variable {v w : Variant}

theorem tagged_inj {tag tag' : Char} {text text' : Bytes} (h : tagged tag text = tagged tag' text') :
    ascii tag = ascii tag' ∧ text = text' := by
  obtain ⟨htag, hrest⟩ := List.cons.inj h
  exact ⟨htag, (List.cons.inj hrest).2⟩

theorem dedupKey_composite (h : v.isComposite = true) :
    dedupKey v = tagged 'O' (Json.dumpJson Json.toCharsBytes (fun _ => .compact) (toJson v) 0) := by
  cases v with
  | array xs => rfl
  | object es => rfl
  | _ => cases h

/-- The prefix of a scalar is not that of the others. -/
theorem dedupKey_scalar (h : v.isComposite = false) {text : Bytes} : dedupKey v ≠ tagged 'O' text := by
  intro heq
  cases v with
  | array xs => cases h
  | object es => cases h
  | _ => exact absurd (tagged_inj heq).1 (by decide)

theorem canonical_inj {f g : FiniteBinary64}
    (h : goFormatG (canonical (.finite f)) = goFormatG (canonical (.finite g))) :
    f = g ∨ isZeroDouble (.finite f) = true ∧ isZeroDouble (.finite g) = true := by
  have hzero : ∀ f : FiniteBinary64, isZeroDouble (.finite f) = true ↔ f.mant = 0 := fun f => decide_eq_true_iff
  unfold canonical at h
  by_cases hf : isZeroDouble (.finite f) = true
  · rw [if_pos hf] at h
    by_cases hg : isZeroDouble (.finite g) = true
    · exact Or.inr ⟨hf, hg⟩
    · rw [if_neg hg] at h
      have heq := Json.goFormatG_inj h
      exact absurd ((hzero g).mpr (heq ▸ rfl)) hg
  · rw [if_neg hf] at h
    by_cases hg : isZeroDouble (.finite g) = true
    · rw [if_pos hg] at h
      have heq := Json.goFormatG_inj h
      exact absurd ((hzero f).mpr (heq ▸ rfl)) hf
    · rw [if_neg hg] at h
      exact Or.inl (Json.goFormatG_inj h)

/-- Values with one key are the same value, or zeros. -/
theorem eq_of_dedupKey (hv : v.Stored) (hw : w.Stored) (h : dedupKey v = dedupKey w) :
    v = w ∨ ∃ d e, v = .number d ∧ w = .number e ∧ isZeroDouble d = true ∧ isZeroDouble e = true := by
  cases hcv : v.isComposite with
  | true =>
    cases hcw : w.isComposite with
    | true =>
      rw [dedupKey_composite hcv, dedupKey_composite hcw] at h
      exact Or.inl (dumpJson_inj hv hw (tagged_inj h).2)
    | false =>
      rw [dedupKey_composite hcv] at h
      exact absurd h.symm (dedupKey_scalar hcw)
  | false =>
    cases hcw : w.isComposite with
    | true =>
      rw [dedupKey_composite hcw] at h
      exact absurd h (dedupKey_scalar hcv)
    | false =>
      rcases hv with _ | b | f | s | _ | _
      · rcases hw with _ | _ | _ | _ | _ | _
        · exact Or.inl rfl
        all_goals exact absurd (tagged_inj h).1 (by decide)
      · rcases hw with _ | b' | _ | _ | _ | _
        · exact absurd (tagged_inj h).1 (by decide)
        · have hbit := (List.cons.inj (tagged_inj h).2).1
          left
          rcases b <;> rcases b' <;> first | rfl | exact absurd hbit (by decide)
        all_goals exact absurd (tagged_inj h).1 (by decide)
      · rcases hw with _ | _ | g | _ | _ | _
        · exact absurd (tagged_inj h).1 (by decide)
        · exact absurd (tagged_inj h).1 (by decide)
        · rcases canonical_inj (utf8Bytes_inj (tagged_inj h).2) with rfl | hzero
          · exact Or.inl rfl
          · exact Or.inr ⟨_, _, rfl, rfl, hzero⟩
        all_goals exact absurd (tagged_inj h).1 (by decide)
      · rcases hw with _ | _ | _ | s' | _ | _
        · exact absurd (tagged_inj h).1 (by decide)
        · exact absurd (tagged_inj h).1 (by decide)
        · exact absurd (tagged_inj h).1 (by decide)
        · exact Or.inl (congrArg Variant.string (utf8Bytes_inj (tagged_inj h).2))
        all_goals exact absurd hcw nofun
      all_goals exact absurd hcv nofun

theorem jsonEqual_of_dedupKey (hv : v.Stored) (hw : w.Stored) (h : dedupKey v = dedupKey w) : jsonEqual v w = true := by
  rcases eq_of_dedupKey hv hw h with rfl | ⟨d, e, rfl, rfl, hd, he⟩
  · exact Variant.jsonEqual_self hv
  · simp [jsonEqual, hd, he]

/-- Equal scalars have one key. -/
theorem dedupKey_of_jsonEqual (h : jsonEqual v w = true) (hv : v.isComposite = false) : dedupKey v = dedupKey w := by
  rcases v with _ | a | a | a | _ | _
  · rcases w with _ | _ | _ | _ | _ | _ <;> first | rfl | simp [jsonEqual] at h
  · rcases w with _ | _ | _ | _ | _ | _ <;> simp [jsonEqual] at h
    rw [h]
  · rcases w with _ | _ | b | _ | _ | _ <;> simp [jsonEqual] at h
    rcases h with rfl | ⟨ha, hb⟩
    · rfl
    · have hcanonical : canonical a = canonical b := by
        unfold canonical
        rw [if_pos ha, if_pos hb]
      exact congrArg (fun d => tagged 'F' (utf8Bytes (goFormatG d))) hcanonical
  · rcases w with _ | _ | _ | _ | _ | _ <;> simp [jsonEqual] at h
    rw [h]
  · cases hv
  · cases hv

/-- Go has the same keys. -/
theorem goDedupKey_eq (hv : v.Stored) : goDedupKey v = dedupKey v := by
  have hcomposite : v.isComposite = true → tagged 'O' ((goMarshal v).getD (utf8Bytes (goSprintValue v))) = dedupKey v := by
    intro h
    rw [goMarshal_eq hv 0, dedupKey_composite h]
    exact congrArg (tagged 'O') (List.append_nil _).symm
  cases hv with
  | null => rfl
  | bool b => rfl
  | number f =>
    exact congrArg (fun text => tagged 'F' (utf8Bytes text)) (goFormatG_eq _).symm
  | string s => rfl
  | array _ => exact hcomposite rfl
  | object _ _ => exact hcomposite rfl

/-! ## Frames -/

section
variable {S T : FrameStorage} {spec : InputFieldSpec} {s : FrameState S.σ} {t : FrameState T.σ} {op : String}
  {dedup : MergeDedup}

/-- The column of items taken from others. -/
theorem column_gathered {slots : List Nat} (h : S.Gathered s slots t) (hlt : ∀ j ∈ slots, j < S.rowCount s)
    (field : String) : column T spec t field = slots.map fun j => (column S spec s field).getD j .null := by
  unfold column
  rw [FrameStorage.itemColumn_input, FrameStorage.itemColumn_input, h.rowCount]
  refine List.ext_getElem (by simp) fun k hk hk' => ?_
  have hslot : k < slots.length := by simpa using hk'
  have hbound : slots[k] < ((List.range (S.rowCount s)).map fun i =>
      FrameStorage.readCell spec field (S.cell s.items i field)).length := by
    simpa using hlt slots[k] (List.getElem_mem hslot)
  rw [List.getElem_map, List.getElem_map, List.getElem_range, h.cell, List.getElem?_eq_getElem hslot, Option.bind_some,
    List.getD_eq_getElem _ _ hbound, List.getElem_map, List.getElem_range]

/-- The slots that are not removed, where keys stand for equal values. -/
theorem kept_eq {vals : List Variant} (hkeys : ∀ v ∈ vals, ∀ w ∈ vals, dedupKey v = dedupKey w ↔ jsonEqual v w = true) :
    (List.range vals.length).filter (fun i => i ∉ Repeats.repeats (vals.map dedupKey)) = firstOccurrences vals := by
  refine List.filter_congr fun i hi => decide_eq_decide.mpr ?_
  have hi := List.mem_range.mp hi
  rw [Repeats.mem_repeats, List.getElem?_map, List.getElem?_eq_getElem hi, List.getD_eq_getElem _ _ hi]
  constructor
  · intro h j hj
    have hlt := Nat.lt_trans hj hi
    rw [List.getD_eq_getElem _ _ hlt]
    refine Bool.eq_false_iff.mpr fun heq => h ⟨dedupKey vals[i], rfl, j, hj, ?_⟩
    rw [List.getElem?_map, List.getElem?_eq_getElem hlt]
    exact congrArg some ((hkeys _ (List.getElem_mem hlt) _ (List.getElem_mem hi)).mpr heq)
  · rintro h ⟨k, hk, j, hj, hjk⟩
    have hlt := Nat.lt_trans hj hi
    have hfirst := h j hj
    rw [List.getElem?_map, List.getElem?_eq_getElem hlt] at hjk
    rw [List.getD_eq_getElem _ _ hlt] at hfirst
    have hsame : dedupKey vals[j] = dedupKey vals[i] := Option.some.inj (hjk.trans hk.symm)
    rw [(hkeys _ (List.getElem_mem hlt) _ (List.getElem_mem hi)).mp hsame] at hfirst
    cases hfirst

/-- No two first occurrences are equal. -/
theorem firstOccurrences_pairwise (vals : List Variant) :
    ((firstOccurrences vals).map fun i => vals.getD i .null).Pairwise fun v w => jsonEqual v w = false := by
  refine List.pairwise_map.mpr ((List.pairwise_lt_range.filter _).imp_of_mem fun {i j} _ hj hlt => ?_)
  exact of_decide_eq_true (List.mem_filter.mp hj).2 i hlt

theorem survivors_of_identified
    (hkeys : ∀ v ∈ column S spec s dedup.field, ∀ w ∈ column S spec s dedup.field,
      dedupKey v = dedupKey w ↔ jsonEqual v w = true) :
    ∃ t, S.apply dedup.execute op spec s = .ok t ∧
      S.Gathered s (firstOccurrences (column S spec s dedup.field)) t ∧ t.common = s.common ∧
      (column S spec t dedup.field).Pairwise (fun v w => jsonEqual v w = false) ∧
      S.apply dedup.execute op spec t = .ok t := by
  have hlength : (column S spec s dedup.field).length = S.rowCount s := Reorder.length_column _
  have hremoved : ∀ j ∈ Repeats.repeats ((column S spec s dedup.field).map dedupKey), j < S.rowCount s := by
    intro j hj
    obtain ⟨k, hk, -⟩ := Repeats.mem_repeats.mp hj
    obtain ⟨hlt, -⟩ := List.getElem?_eq_some_iff.mp hk
    rwa [List.length_map, hlength] at hlt
  obtain ⟨t, ht, hgathered, hcommon⟩ := @FrameStorage.apply_removal S dedup.execute op spec s _ hremoved rfl
  rw [← hlength, kept_eq hkeys] at hgathered
  have hslots : ∀ j ∈ firstOccurrences (column S spec s dedup.field), j < S.rowCount s := fun j hj =>
    hlength ▸ List.mem_range.mp (List.mem_filter.mp hj).1
  have hcolumn := @column_gathered S S spec s t _ hgathered hslots dedup.field
  have hpairwise := firstOccurrences_pairwise (column S spec s dedup.field)
  rw [← hcolumn] at hpairwise
  refine ⟨t, ht, hgathered, hcommon, hpairwise, FrameStorage.apply_none ?_⟩
  -- the values that are left have different keys
  have hmem : ∀ v ∈ column S spec t dedup.field, v ∈ column S spec s dedup.field := by
    intro v hv
    rw [hcolumn] at hv
    obtain ⟨j, hj, rfl⟩ := List.mem_map.mp hv
    have hlt := hslots j hj
    rw [← hlength] at hlt
    rw [List.getD_eq_getElem _ _ hlt]
    exact List.getElem_mem hlt
  have hnodup : ((column S spec t dedup.field).map dedupKey).Nodup := by
    refine List.pairwise_map.mpr (hpairwise.imp_of_mem fun {v w} hv hw hne heq => ?_)
    rw [(hkeys v (hmem v hv) w (hmem w hw)).mp heq] at hne
    cases hne
  show Except.ok (FrameStorage.removing (Repeats.repeats ((column S spec t dedup.field).map dedupKey))) = _
  rw [Repeats.repeats_nodup hnodup]
  rfl

/-- A frame is deduplicated exactly when equal arrays and equal objects of its column are the same value, down to the
signs of their zeros. -/
theorem deduplicates_iff (dedup : MergeDedup) (op : String) (S : FrameStorage) (spec : InputFieldSpec)
    (s : FrameState S.σ) (hvals : ∀ v ∈ column S spec s dedup.field, v.Stored) :
    Deduplicates dedup op S spec s ↔
      ∀ v ∈ column S spec s dedup.field, ∀ w ∈ column S spec s dedup.field,
        v.isComposite = true → jsonEqual v w = true → v = w := by
  constructor
  · intro h v hv w hw hcomposite heq
    rcases eq_of_dedupKey (hvals v hv) (hvals w hw) ((h.identified v hv w hw).1.mpr heq) with hvw | ⟨d, e, rfl, -⟩
    · exact hvw
    · cases hcomposite
  · intro h
    have hkeys : ∀ v ∈ column S spec s dedup.field, ∀ w ∈ column S spec s dedup.field,
        dedupKey v = dedupKey w ↔ jsonEqual v w = true := by
      intro v hv w hw
      refine ⟨jsonEqual_of_dedupKey (hvals v hv) (hvals w hw), fun heq => ?_⟩
      cases hcomposite : v.isComposite with
      | true => rw [h v hv w hw hcomposite heq]
      | false => exact dedupKey_of_jsonEqual heq hcomposite
    have hgo : (column S spec s dedup.field).map goDedupKey = (column S spec s dedup.field).map dedupKey :=
      List.map_congr_left fun v hv => goDedupKey_eq (hvals v hv)
    refine ⟨fun v hv w hw => ⟨hkeys v hv w hw, ?_⟩, survivors_of_identified hkeys, ?_⟩
    · rw [goDedupKey_eq (hvals v hv), goDedupKey_eq (hvals w hw)]
      exact hkeys v hv w hw
    · unfold goRemoved
      rw [hgo]
      rfl

end

/-! ## An array of one zero -/

def zeroArray (neg : Bool) : Variant := .array [.number (.finite (.zero neg))]

theorem zeroArray_stored (neg : Bool) : (zeroArray neg).Stored :=
  .array fun _ hv => List.mem_singleton.mp hv ▸ .number _

theorem column_zeroArrays : column .row {} (oneField "id" [zeroArray false, .null, zeroArray false]) "id" =
    [zeroArray false, .null, zeroArray false] := by decide +kernel

theorem deduplicates_zeroArrays :
    Deduplicates ⟨"id"⟩ "dedup" .row {} (oneField "id" [zeroArray false, .null, zeroArray false]) := by
  refine (deduplicates_iff ⟨"id"⟩ "dedup" .row {} _ ?_).mpr ?_
  · rw [column_zeroArrays]
    intro v hv
    simp only [List.mem_cons, List.not_mem_nil, or_false] at hv
    rcases hv with rfl | rfl | rfl
    · exact zeroArray_stored false
    · exact .null
    · exact zeroArray_stored false
  · rw [column_zeroArrays]
    decide +kernel

/-- `[0]` and `[-0]` are equal and keep both their items. -/
theorem zeroArrays_kept :
    ¬ Deduplicates ⟨"id"⟩ "dedup" .row {} (oneField "id" [zeroArray false, zeroArray true]) := by
  intro h
  have hcolumn : column .row {} (oneField "id" [zeroArray false, zeroArray true]) "id" =
      [zeroArray false, zeroArray true] := by decide +kernel
  have hkeys := (h.identified (zeroArray false) (by rw [hcolumn]; simp) (zeroArray true) (by rw [hcolumn]; simp)).1.mpr
    (by decide +kernel)
  rcases eq_of_dedupKey (zeroArray_stored false) (zeroArray_stored true) hkeys with heq | ⟨d, e, heq, -⟩
  · exact absurd heq (by decide +kernel)
  · cases heq

end Pineapple.Dedup
