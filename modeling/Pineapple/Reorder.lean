import Pineapple.JsonWriter
import Pineapple.Lib.Except
import Pineapple.Lib.StableSort
import Pineapple.NumberRendering
import Pineapple.StorageKinds
import Mathlib.Data.Int.ConditionallyCompleteOrder
import Mathlib.Data.Prod.Lex

/-! # Sorting and shuffling (`reorder_sort`, `reorder_shuffle_by_salt`)

Both operators read one column, sort its positions by a key and leave the positions as the order of the items. -/

namespace Pineapple.Reorder

open Json (Bytes)

/-! ## Comparing doubles -/

def signedUnits (f : FiniteBinary64) : Int := if f.neg then -(f.units : Int) else f.units

/-- `<` on doubles. -/
def less : Binary64 → Binary64 → Bool
  | .nan, _ => false
  | _, .nan => false
  | .inf neg, .inf neg' => neg && !neg'
  | .inf neg, .finite _ => neg
  | .finite _, .inf neg => !neg
  | .finite f, .finite g => signedUnits f < signedUnits g

/-- The place of a double that is a number. -/
def position : Binary64 → WithBot (WithTop Int)
  | .inf false => ((⊤ : WithTop Int) : WithBot (WithTop Int))
  | .finite f => ((signedUnits f : WithTop Int) : WithBot (WithTop Int))
  | _ => ⊥

/-! ## `reorder_sort` -/

/-- `to_double`; the error is what `what()` gives. -/
def toDouble : Variant → Except String Binary64
  | .bool _ => .error "cannot convert bool to float64"
  | .number d => .ok d
  | .null => .error "cannot convert <nil> to float64"
  | .string _ => .error "cannot convert string to float64"
  | .array _ => .error "cannot convert []interface \x7b\x7d to float64"
  | .object _ => .error "cannot convert map[string]interface \x7b\x7d to float64"

structure Keyed where
  v : Binary64
  idx : Nat

structure Sorter where
  field : String
  order : String

/-- `ReorderSortOp::init`. -/
def Sorter.init (itemInput : List String) (params : SortedMap String Variant) : Except PineError Sorter :=
  match itemInput with
  | [] => .error (.execution "" "reorder_sort requires item_input field")
  | field :: _ =>
    match params.find? "order" with
    | none => .ok ⟨field, "desc"⟩
    | some order => order.asString.map (Sorter.mk field)

def Sorter.key (sorter : Sorter) (v : Variant) (i : Nat) : Except PineError Keyed :=
  let key :=
    if v.isNull then .error ("required field \"" ++ sorter.field ++ "\" is nil on item[" ++ toString i ++ "]")
    else toDouble v
  match key with
  | .ok d => .ok ⟨d, i⟩
  | .error err =>
    .error (.execution "" ("reorder_sort: item[" ++ toString i ++ "]." ++ sorter.field ++ ": " ++ err))

/-- `std::stable_sort`. -/
def stableSort {α : Type} (less : α → α → Bool) (xs : List α) : List α := xs.mergeSort fun a b => !less b a

/-- The comparison of a direction. -/
def Sorter.before? (sorter : Sorter) : Option (Binary64 → Binary64 → Bool) :=
  if sorter.order = "asc" then some less
  else if sorter.order = "desc" then some fun a b => less b a
  else none

/-- `ReorderSortOp::execute`. -/
def Sorter.execute (sorter : Sorter) (input : OperatorInput) : Except PineError OperatorOutput :=
  if input.itemCount = 0 then .ok {}
  else do
    let keyed ← (input.itemColumn sorter.field).zipIdx.mapM fun v => sorter.key v.1 v.2
    match sorter.before? with
    | none => .error (.execution "" ("reorder_sort: unsupported order \"" ++ sorter.order ++ "\""))
    | some before =>
      let keyed := stableSort (fun a b : Keyed => before a.v b.v) keyed
      .ok { itemOrder := some (keyed.map fun k => Int.ofNat k.idx) }

/-! ## `reorder_shuffle_by_salt` -/

def utf8Bytes (s : String) : Bytes := s.toList.flatMap fun c => Json.utf8 c.toNat

mutual
/-- A value as the JSON writer takes it. -/
def toJson : Variant → Json.Value
  | .null => .null
  | .bool b => .bool b
  | .number d => .number d
  | .string s => .string (utf8Bytes s)
  | .array xs => .array (toJsonArray xs)
  | .object es => .object (toJsonObject es)

def toJsonArray : List Variant → List Json.Value
  | [] => []
  | x :: xs => toJson x :: toJsonArray xs

def toJsonObject : List (String × Variant) → List (Bytes × Json.Value)
  | [] => []
  | (k, v) :: es => (utf8Bytes k, toJson v) :: toJsonObject es
end

/-- `any_to_string`. -/
def anyToString : Variant → Bytes
  | .null => []
  | .string s => utf8Bytes s
  | .number d => utf8Bytes (goFormatG d)
  | .bool b => utf8Bytes (if b then "true" else "false")
  | v => Json.dumpJson Json.toCharsBytes (fun _ => .compact) (toJson v) 0

def fnv64a (s : Bytes) : UInt64 :=
  s.foldl (fun hash c => (hash ^^^ c.toUInt64) * 1099511628211) 14695981039346656037

/-- `parse_uint64`: the leading digits, and zero where there are none or the number is too large. -/
def parseUint64 (s : Bytes) : Nat :=
  let digits := s.takeWhile fun c => 48 ≤ c && c ≤ 57
  let value := digits.foldl (fun n c => n * 10 + (c.toNat - 48)) 0
  if value < 2 ^ 64 then value else 0

/-- `static_cast<double>(h) / (static_cast<double>(UINT64_MAX) + 1.0)`: the divisor is `2 ^ 64`. -/
def rank (h : UInt64) : Binary64 :=
  match Binary64.ofNat false h.toNat with
  | .finite f => Binary64.ofRatio f.neg f.units (Binary64.unitsPerOne * 2 ^ 64)
  | d => d

structure Ranked where
  idx : Nat
  r : Binary64
  id : Nat

def Ranked.less (a b : Ranked) : Bool :=
  if Reorder.less a.r b.r || Reorder.less b.r a.r then Reorder.less a.r b.r
  else if a.id ≠ b.id then a.id < b.id
  else a.idx < b.idx

structure Shuffler where
  commonInputs : List String
  itemField : String

/-- The texts of the salt fields, each with a bar after it. -/
def Shuffler.salt (shuffler : Shuffler) (input : OperatorInput) : Bytes :=
  match shuffler.commonInputs with
  | [] => [Json.ascii '|']
  | fields => fields.flatMap fun field => anyToString (input.common field) ++ [Json.ascii '|']

/-- The hash and the number by which a value is placed. -/
def hashAndId (salt : Bytes) (v : Variant) : UInt64 × Nat :=
  let itemVal := anyToString v
  (fnv64a (salt ++ itemVal), parseUint64 itemVal)

def ranked (salt : Bytes) (v : Variant) (i : Nat) : Ranked :=
  let key := hashAndId salt v
  ⟨i, rank key.1, key.2⟩

/-- `ReorderShuffleBySaltOp::execute`. -/
def Shuffler.execute (shuffler : Shuffler) (input : OperatorInput) : Except PineError OperatorOutput :=
  if input.itemCount = 0 then .ok {}
  else
    let keyed := (input.itemColumn shuffler.itemField).zipIdx.map fun v => ranked (shuffler.salt input) v.1 v.2
    .ok { itemOrder := some ((keyed.mergeSort fun a b => !Ranked.less b a).map fun k => Int.ofNat k.idx) }

/-! ## What the orders are -/

/-- The items in a direction: none comes before one that is to be before it, and those that are equal keep their
order. -/
def InDirection (before : Binary64 → Binary64 → Bool) (vals : List Binary64) (order : List Nat) : Prop :=
  order.Pairwise fun i j => ∀ a b, vals[i]? = some a → vals[j]? = some b →
    before b a = false ∧ (before a b = false → i < j)

/-- The values of a field as an operator reads them. -/
def column (S : FrameStorage) (spec : InputFieldSpec) (s : FrameState S.σ) (field : String) : List Variant :=
  (S.input spec s).itemColumn field

section
variable {S T : FrameStorage} {spec : InputFieldSpec} {s : FrameState S.σ} {before : Binary64 → Binary64 → Bool}
  {vals : List Binary64} {op : String}

theorem length_column (field : String) : (column S spec s field).length = S.rowCount s := by
  unfold column
  rw [FrameStorage.itemColumn_input, List.length_map, List.length_range]

theorem less_eq {a b : Binary64} (ha : a ≠ .nan) (hb : b ≠ .nan) : less a b = decide (position a < position b) := by
  rw [Bool.eq_iff_iff, decide_eq_true_iff]
  rcases a with _ | a | f
  · exact absurd rfl ha
  · rcases b with _ | b | g
    · exact absurd rfl hb
    · rcases a <;> rcases b <;> simp [less, position]
    · rcases a <;> simp [less, position]
  · rcases b with _ | b | g
    · exact absurd rfl hb
    · rcases b
      · exact iff_of_true rfl (WithBot.coe_lt_coe.mpr (WithTop.coe_lt_top _))
      · simp [less, position]
    · simp [less, position]

/-- The positions of items under their keys, as a stable sort leaves them. -/
def ordered {κ : Type} [LinearOrder κ] (key : Nat → κ) (n : Nat) : List Nat :=
  (List.range n).mergeSort fun i j => decide (key i ≤ key j)

theorem ordered_congr {κ : Type} [LinearOrder κ] {key key' : Nat → κ} {n : Nat} (h : ∀ i < n, key i = key' i) :
    ordered key n = ordered key' n := by
  have hkeys : ∀ i ∈ List.range n, ∀ j ∈ List.range n, decide (key i ≤ key j) = decide (key' (id i) ≤ key' (id j)) := by
    intro i hi j hj
    rw [h i (List.mem_range.mp hi), h j (List.mem_range.mp hj), id, id]
  have hmap := @List.map_mergeSort _ _ (fun i j => decide (key i ≤ key j)) (fun i j => decide (key' i ≤ key' j)) id
    (List.range n) hkeys
  rwa [List.map_id, List.map_id] at hmap

theorem ordered_perm {κ : Type} [LinearOrder κ] (key : Nat → κ) (n : Nat) : (ordered key n).Perm (List.range n) :=
  List.mergeSort_perm _ _

theorem ordered_pairwise {κ : Type} [LinearOrder κ] (key : Nat → κ) (n : Nat) :
    (ordered key n).Pairwise fun i j => key i ≤ key j ∧ (key j ≤ key i → i < j) := by
  have htrans : ∀ i j k, decide (key i ≤ key j) = true → decide (key j ≤ key k) = true → decide (key i ≤ key k) = true :=
    fun i j k hij hjk => decide_eq_true ((of_decide_eq_true hij).trans (of_decide_eq_true hjk))
  have htotal : ∀ i j, (decide (key i ≤ key j) || decide (key j ≤ key i)) = true := by
    intro i j
    rcases le_total (key i) (key j) with h | h <;> simp [h]
  refine (StableSort.pairwise_mergeSort htrans htotal List.nodup_range List.pairwise_lt_range).imp ?_
  exact fun h => ⟨of_decide_eq_true h.1, fun hle => h.2 (decide_eq_true hle)⟩

/-- A sort of records that carry their positions. -/
theorem mergeSort_records {κ α : Type} [LinearOrder κ] {record : Nat → α} {idx : α → Nat} {le : α → α → Bool}
    {key : Nat → κ} {n : Nat} (hidx : ∀ i, idx (record i) = i)
    (hle : ∀ i < n, ∀ j < n, le (record i) (record j) = decide (key i ≤ key j)) :
    (((List.range n).map record).mergeSort le).map idx = ordered key n := by
  have hmap : ∀ i ∈ List.range n, ∀ j ∈ List.range n, decide (key i ≤ key j) = le (record i) (record j) :=
    fun i hi j hj => (hle i (List.mem_range.mp hi) j (List.mem_range.mp hj)).symm
  rw [← List.map_mergeSort hmap, List.map_map]
  exact (List.map_congr_left fun i _ => hidx i).trans (List.map_id _)

theorem zipIdx_map {α β : Type} (g : α → Nat → β) (xs : List α) (d : α) :
    (xs.zipIdx.map fun v => g v.1 v.2) = (List.range xs.length).map fun i => g (xs.getD i d) i := by
  refine List.ext_getElem (by simp) fun i hi hi' => ?_
  have hlt : i < xs.length := by simpa using hi
  simp [List.getElem?_eq_getElem hlt]

/-! ## Sorting -/

theorem mapM_ok {α β ε : Type} {f : α → Except ε β} {g : α → β} {l : List α} (h : ∀ a ∈ l, f a = .ok (g a)) :
    l.mapM f = .ok (l.map g) := by
  induction l with
  | nil => rfl
  | cons a l ih =>
    rw [List.mapM_cons, h a List.mem_cons_self, ih fun b hb => h b (List.mem_cons_of_mem _ hb)]
    rfl

theorem mapM_error {α β ε : Type} {f : α → Except ε β} {l : List α} (h : ∃ a ∈ l, ∃ e, f a = .error e) :
    ∃ e, l.mapM f = .error e := by
  induction l with
  | nil =>
    obtain ⟨a, ha, -⟩ := h
    cases ha
  | cons b l ih =>
    rw [List.mapM_cons]
    cases hb : f b with
    | error e => exact ⟨e, rfl⟩
    | ok c =>
      obtain ⟨a, ha, e, he⟩ := h
      rcases List.mem_cons.mp ha with rfl | ha
      · rw [hb] at he
        cases he
      · obtain ⟨e, he⟩ := ih ⟨a, ha, e, he⟩
        rw [he]
        exact ⟨e, rfl⟩

/-- The number that a value is. -/
def numberOf : Variant → Binary64
  | .number d => d
  | _ => .nan

theorem Sorter.keys_eq (sorter : Sorter) (vals : List Binary64) :
    ((vals.map Variant.number).zipIdx.mapM fun v => sorter.key v.1 v.2) =
      .ok ((List.range vals.length).map fun i => ⟨vals.getD i .nan, i⟩) := by
  have hkeys : ∀ v ∈ (vals.map Variant.number).zipIdx, sorter.key v.1 v.2 =
      .ok ⟨numberOf v.1, v.2⟩ := by
    intro v hv
    obtain ⟨d, -, hd⟩ := List.mem_map.mp (List.fst_mem_of_mem_zipIdx hv)
    rw [← hd]
    rfl
  rw [mapM_ok hkeys, zipIdx_map (fun v i => (⟨numberOf v, i⟩ : Keyed)) _ .null,
    List.length_map]
  refine congrArg Except.ok (List.map_congr_left fun i hi => ?_)
  have hlt := List.mem_range.mp hi
  rw [List.getD_eq_getElem?_getD, List.getD_eq_getElem?_getD, List.getElem?_map, List.getElem?_eq_getElem hlt]
  rfl

/-- Records sorted by a comparison that follows a key. -/
theorem stableSort_spec {κ : Type} [LinearOrder κ] {key : Nat → κ}
    (hkey : ∀ i < vals.length, ∀ j < vals.length,
      before (vals.getD i .nan) (vals.getD j .nan) = decide (key i < key j)) :
    (stableSort (fun a b : Keyed => before a.v b.v) ((List.range vals.length).map fun i => ⟨vals.getD i .nan, i⟩)).map
        Keyed.idx = ordered key vals.length ∧
      InDirection before vals (ordered key vals.length) := by
  constructor
  · refine mergeSort_records (fun _ => rfl) fun i hi j hj => ?_
    dsimp only
    rw [hkey j hj i hi, ← decide_not]
    exact decide_eq_decide.mpr not_lt
  · refine (ordered_pairwise key vals.length).imp fun {i j} h a b ha hb => ?_
    obtain ⟨hi, rfl⟩ := List.getElem?_eq_some_iff.mp ha
    obtain ⟨hj, rfl⟩ := List.getElem?_eq_some_iff.mp hb
    have hij := hkey i hi j hj
    have hji := hkey j hj i hi
    rw [List.getD_eq_getElem _ _ hi, List.getD_eq_getElem _ _ hj] at hij hji
    rw [hij, hji]
    exact ⟨decide_eq_false (not_lt.mpr h.1), fun hlt => h.2 (not_lt.mp (of_decide_eq_false hlt))⟩

theorem Sorter.before_cases {sorter : Sorter} (h : sorter.order = "asc" ∨ sorter.order = "desc") :
    sorter.before? = some less ∨ sorter.before? = some fun a b => less b a := by
  unfold Sorter.before?
  rcases h with h | h
  · left
    rw [if_pos h]
  · right
    rw [if_neg (by rw [h]; decide), if_pos h]

/-- The order that a sorter leaves for a column of numbers. -/
theorem Sorter.sorts {sorter : Sorter} (hb : sorter.before? = some before)
    (hdir : sorter.order = "asc" ∨ sorter.order = "desc") (hnan : .nan ∉ vals) :
    ∃ order, ((stableSort (fun a b : Keyed => before a.v b.v)
        ((List.range vals.length).map fun i => ⟨vals.getD i .nan, i⟩)).map Keyed.idx) = order ∧
      order.Perm (List.range vals.length) ∧ InDirection before vals order := by
  have hne : ∀ i < vals.length, vals.getD i .nan ≠ .nan := by
    intro i hi h
    rw [List.getD_eq_getElem _ _ hi] at h
    exact hnan (h ▸ List.getElem_mem hi)
  rcases Sorter.before_cases hdir with hcase | hcase
  · obtain rfl := Option.some.inj (hb.symm.trans hcase)
    have hkey : ∀ i < vals.length, ∀ j < vals.length, less (vals.getD i .nan) (vals.getD j .nan) =
        decide (position (vals.getD i .nan) < position (vals.getD j .nan)) :=
      fun i hi j hj => less_eq (hne i hi) (hne j hj)
    obtain ⟨horder, hsorted⟩ := stableSort_spec hkey
    exact ⟨_, horder, ordered_perm _ _, hsorted⟩
  · obtain rfl := Option.some.inj (hb.symm.trans hcase)
    have hkey : ∀ i < vals.length, ∀ j < vals.length, less (vals.getD j .nan) (vals.getD i .nan) =
        decide (OrderDual.toDual (position (vals.getD i .nan)) < OrderDual.toDual (position (vals.getD j .nan))) :=
      fun i hi j hj => less_eq (hne j hj) (hne i hi)
    obtain ⟨horder, hsorted⟩ := @stableSort_spec (fun a b => less b a) vals _ _ _ hkey
    exact ⟨_, horder, ordered_perm _ _, hsorted⟩

theorem Sorter.execute_eq {sorter : Sorter} (hdir : sorter.order = "asc" ∨ sorter.order = "desc")
    (hcolumn : column S spec s sorter.field = vals.map .number) (hnan : .nan ∉ vals) :
    ∃ before order t, sorter.before? = some before ∧ S.apply sorter.execute op spec s = .ok t ∧
      order.Perm (List.range (S.rowCount s)) ∧ S.Gathered s order t ∧ InDirection before vals order := by
  obtain ⟨before, hb⟩ : ∃ before, sorter.before? = some before :=
    (Sorter.before_cases hdir).elim (fun h => ⟨_, h⟩) fun h => ⟨_, h⟩
  obtain ⟨order, horder, hperm, hsorted⟩ := Sorter.sorts hb hdir hnan
  have hlength : vals.length = S.rowCount s := by
    rw [← @length_column _ spec _ sorter.field, hcolumn, List.length_map]
  rw [hlength] at hperm
  by_cases hzero : S.rowCount s = 0
  · have hout : sorter.execute (S.input spec s) = .ok {} := if_pos ((FrameStorage.itemCount_input spec s).trans hzero)
    obtain rfl : order = [] := by simpa [hzero] using hperm
    refine ⟨before, [], s, hb, FrameStorage.apply_none hout, hperm, ?_, hsorted⟩
    have hgathered := FrameStorage.gathered_range s
    rwa [hzero] at hgathered
  · have hout : sorter.execute (S.input spec s) = .ok { itemOrder := some (order.map Int.ofNat) } := by
      unfold Sorter.execute
      rw [if_neg (by rw [FrameStorage.itemCount_input]; exact hzero)]
      unfold column at hcolumn
      rw [hcolumn, Sorter.keys_eq, Except.ok_bind, hb, ← horder, List.map_map]
      rfl
    obtain ⟨t, ht, hgathered, -⟩ := FrameStorage.apply_order hperm hout
    exact ⟨before, order, t, hb, ht, hperm, hgathered, hsorted⟩

/-- A value that is no number ends the sorter. -/
theorem Sorter.execute_error {sorter : Sorter} (h : ∃ v ∈ column S spec s sorter.field, ∀ d, v ≠ .number d) :
    ∃ e, S.apply sorter.execute op spec s = .fail e s := by
  obtain ⟨v, hv, hnumber⟩ := h
  have hcount : S.rowCount s ≠ 0 := by
    rw [← @length_column _ spec _ sorter.field]
    exact (List.length_pos_of_mem hv).ne'
  obtain ⟨i, hi, hget⟩ := List.mem_iff_getElem.mp hv
  have hmem : (v, i) ∈ (column S spec s sorter.field).zipIdx :=
    List.mk_mem_zipIdx_iff_getElem?.mpr (List.getElem?_eq_some_iff.mpr ⟨hi, hget⟩)
  have hkey : ∃ e, sorter.key v i = .error e := by
    cases v with
    | number d => exact absurd rfl (hnumber d)
    | _ => exact ⟨_, rfl⟩
  obtain ⟨e, he⟩ := @mapM_error _ _ _ (fun v : Variant × Nat => sorter.key v.1 v.2) _ ⟨_, hmem, hkey⟩
  refine ⟨e, ?_⟩
  have hout : sorter.execute (S.input spec s) = .error e := by
    unfold Sorter.execute
    rw [if_neg (by rw [FrameStorage.itemCount_input]; exact hcount)]
    unfold column at he
    rw [he]
    rfl
  unfold FrameStorage.apply
  rw [hout]

/-! ## Shuffling -/

/-- A double with a sign that is a number. -/
def HasSign (neg : Bool) (d : Binary64) : Prop := d = .inf neg ∨ ∃ f, d = .finite f ∧ f.neg = neg

theorem ofRatio_hasSign (neg : Bool) (p q : Nat) : HasSign neg (Binary64.ofRatio neg p q) := by
  have hunits : ∀ {m k : Nat} {hm : m < 2 ^ 53} {hn : 2 ^ 52 ≤ m ∨ k = 0},
      HasSign neg (Binary64.ofUnits neg m k hm hn) := by
    intro m k hm hn
    unfold Binary64.ofUnits
    split
    · exact Or.inr ⟨_, rfl, rfl⟩
    · exact Or.inl rfl
  unfold Binary64.ofRatio
  dsimp only
  split
  · exact hunits
  · exact hunits

theorem ofNat_hasSign (neg : Bool) (a : Nat) : HasSign neg (Binary64.ofNat neg a) := by
  have hparts : ∀ {m : Nat} {e : Int} {hm : 2 ^ 52 ≤ m} {hm' : m < 2 ^ 53} {he : 0 ≤ e + 1074},
      HasSign neg (Binary64.ofParts neg m e hm hm' he) := by
    intro m e hm hm' he
    unfold Binary64.ofParts
    split
    · exact Or.inr ⟨_, rfl, rfl⟩
    · exact Or.inl rfl
  unfold Binary64.ofNat
  split
  · exact Or.inr ⟨_, rfl, rfl⟩
  · split
    · exact hparts
    · split
      · exact hparts
      · exact hparts

theorem rank_hasSign (h : UInt64) : HasSign false (rank h) := by
  unfold rank
  rcases ofNat_hasSign false h.toNat with hd | ⟨f, hd, hneg⟩
  · rw [hd]
    exact Or.inl rfl
  · rw [hd]
    dsimp only
    rw [hneg]
    exact ofRatio_hasSign _ _ _

theorem HasSign.ne_nan {neg : Bool} {d : Binary64} (h : HasSign neg d) : d ≠ .nan := by
  rcases h with rfl | ⟨f, rfl, -⟩ <;> nofun

/-- Doubles of one sign are told apart by their places. -/
theorem HasSign.position_inj {a b : Binary64} (ha : HasSign false a) (hb : HasSign false b)
    (h : position a = position b) : a = b := by
  rcases ha with rfl | ⟨f, rfl, hf⟩
  · rcases hb with rfl | ⟨g, rfl, hg⟩
    · rfl
    · exact absurd (WithBot.coe_inj.mp h) (WithTop.top_ne_coe)
  · rcases hb with rfl | ⟨g, rfl, hg⟩
    · exact absurd (WithBot.coe_inj.mp h) (WithTop.coe_ne_top)
    · have hunits : signedUnits f = signedUnits g := WithTop.coe_inj.mp (WithBot.coe_inj.mp h)
      unfold signedUnits at hunits
      rw [hf, hg] at hunits
      have heq : f.units = g.units := Int.natCast_inj.mp hunits
      rw [← FiniteBinary64.ofRatio_units f, ← FiniteBinary64.ofRatio_units g, heq, hf, hg]

/-- The rank and the number of a value. -/
def rankAndId (salt : Bytes) (v : Variant) : Binary64 × Nat :=
  let key := hashAndId salt v
  (rank key.1, key.2)

/-- The key of a rank and a number, and of a record. -/
def place (p : Binary64 × Nat) : WithBot (WithTop Int) ×ₗ Nat := toLex (position p.1, p.2)

def Ranked.key (a : Ranked) : (WithBot (WithTop Int) ×ₗ Nat) ×ₗ Nat := toLex (place (a.r, a.id), a.idx)

theorem Ranked.less_eq {a b : Ranked} (ha : a.r ≠ .nan) (hb : b.r ≠ .nan) : a.less b = decide (a.key < b.key) := by
  unfold Ranked.less Ranked.key place
  rw [Reorder.less_eq ha hb, Reorder.less_eq hb ha]
  simp only [Prod.Lex.toLex_lt_toLex, EmbeddingLike.apply_eq_iff_eq, Prod.mk.injEq]
  rcases lt_trichotomy (position a.r) (position b.r) with h | h | h
  · simp [h]
  · by_cases hid : a.id = b.id
    · simp [h, hid]
    · simp [h, hid]
  · simp [h, h.not_gt, h.ne']

/-- The order in which a shuffle leaves the items. -/
def Shuffler.slots (shuffler : Shuffler) (S : FrameStorage) (spec : InputFieldSpec) (s : FrameState S.σ) : List Nat :=
  ordered (fun i => (ranked (shuffler.salt (S.input spec s)) ((column S spec s shuffler.itemField).getD i .null) i).key)
    (S.rowCount s)

theorem Shuffler.slots_perm (shuffler : Shuffler) (s : FrameState S.σ) :
    (shuffler.slots S spec s).Perm (List.range (S.rowCount s)) := ordered_perm _ _

/-- A shuffle always goes through. -/
theorem Shuffler.execute_eq (shuffler : Shuffler) (op : String) (spec : InputFieldSpec) (s : FrameState S.σ) :
    ∃ t, S.apply shuffler.execute op spec s = .ok t ∧ S.Gathered s (shuffler.slots S spec s) t := by
  have hperm := @Shuffler.slots_perm _ spec shuffler s
  by_cases hzero : S.rowCount s = 0
  · have hout : shuffler.execute (S.input spec s) = .ok {} := if_pos ((FrameStorage.itemCount_input spec s).trans hzero)
    have hslots : shuffler.slots S spec s = [] := by simpa [hzero] using hperm
    refine ⟨s, FrameStorage.apply_none hout, ?_⟩
    have hgathered := FrameStorage.gathered_range s
    rw [hzero] at hgathered
    rwa [hslots]
  · have hrecords : (((column S spec s shuffler.itemField).zipIdx.map fun v =>
        ranked (shuffler.salt (S.input spec s)) v.1 v.2).mergeSort fun a b => !Ranked.less b a).map Ranked.idx =
        shuffler.slots S spec s := by
      rw [zipIdx_map (ranked (shuffler.salt (S.input spec s))) _ .null, length_column]
      refine mergeSort_records (fun _ => rfl) fun i _ j _ => ?_
      rw [Ranked.less_eq (rank_hasSign _).ne_nan (rank_hasSign _).ne_nan, ← decide_not]
      exact decide_eq_decide.mpr not_lt
    have hout : shuffler.execute (S.input spec s) =
        .ok { itemOrder := some ((shuffler.slots S spec s).map Int.ofNat) } := by
      unfold Shuffler.execute
      rw [if_neg (by rw [FrameStorage.itemCount_input]; exact hzero), ← hrecords, List.map_map]
      rfl
    obtain ⟨t, ht, hgathered, -⟩ := FrameStorage.apply_order hperm hout
    exact ⟨t, ht, hgathered⟩

/-- The item of a slot as a shuffle places it. -/
def Shuffler.placeOf (shuffler : Shuffler) (S : FrameStorage) (spec : InputFieldSpec) (s : FrameState S.σ) (i : Nat) :
    Binary64 × Nat :=
  rankAndId (shuffler.salt (S.input spec s)) (FrameStorage.readCell spec shuffler.itemField (S.cell s.items i shuffler.itemField))

theorem ranked_key (salt : Bytes) (v : Variant) (i : Nat) : (ranked salt v i).key = toLex (place (rankAndId salt v), i) :=
  rfl

theorem Shuffler.slots_eq (shuffler : Shuffler) (s : FrameState S.σ) : shuffler.slots S spec s =
    ordered (fun i => toLex (place (shuffler.placeOf S spec s i), i)) (S.rowCount s) := by
  unfold Shuffler.slots
  refine ordered_congr fun i hi => ?_
  rw [ranked_key]
  unfold Shuffler.placeOf column
  rw [FrameStorage.itemColumn_input, List.getD_eq_getElem?_getD, List.getElem?_map, List.getElem?_range hi]
  rfl

/-- Items at different places are shuffled in the order of their places. -/
theorem Shuffler.slots_pairwise (shuffler : Shuffler) (s : FrameState S.σ) :
    (shuffler.slots S spec s).Pairwise fun i j =>
      place (shuffler.placeOf S spec s i) ≤ place (shuffler.placeOf S spec s j) := by
  rw [Shuffler.slots_eq]
  refine (ordered_pairwise _ _).imp fun {i j} h => ?_
  rcases Prod.Lex.toLex_le_toLex.mp h.1 with h | h
  · exact h.le
  · exact h.1.le

theorem Shuffler.placeOf_inj {shuffler : Shuffler} {i j : Nat}
    (h : place (shuffler.placeOf S spec s i) = place (shuffler.placeOf S spec s j)) :
    shuffler.placeOf S spec s i = shuffler.placeOf S spec s j := by
  obtain ⟨hposition, hid⟩ := Prod.mk.inj (toLex.injective h)
  exact Prod.ext (HasSign.position_inj (rank_hasSign _) (rank_hasSign _) hposition) hid

theorem Shuffler.salt_congr (shuffler : Shuffler) {t : FrameState T.σ} (h : t.common = s.common) :
    shuffler.salt (T.input spec t) = shuffler.salt (S.input spec s) := by
  have hcommon : ∀ field, (T.input spec t).common field = (S.input spec s).common field := by
    intro field
    unfold FrameStorage.input OperatorInput.common
    dsimp only
    rw [FrameStorage.common_view, FrameStorage.common_view, h]
  unfold Shuffler.salt
  simp only [hcommon]

/-- A shuffle brings frames with the same items to the same order. -/
theorem Shuffler.slots_moved (shuffler : Shuffler) {s : FrameState S.σ} {t : FrameState T.σ} {order : List Nat}
    (hperm : order.Perm (List.range (S.rowCount s))) (hitems : S.Gathered s order t) (hcommon : t.common = s.common)
    (hplaces : ∀ i < S.rowCount s, ∀ j < S.rowCount s, i ≠ j →
      shuffler.placeOf S spec s i ≠ shuffler.placeOf S spec s j) :
    (shuffler.slots T spec t).map (fun j => order.getD j 0) = shuffler.slots S spec s := by
  have hcount : T.rowCount t = S.rowCount s := by rw [hitems.rowCount, hperm.length_eq, List.length_range]
  have hlength : order.length = S.rowCount s := hitems.rowCount.symm.trans hcount
  have hmoved : ∀ k < S.rowCount s, shuffler.placeOf T spec t k = shuffler.placeOf S spec s (order.getD k 0) := by
    intro k hk
    have hget : order[k]? = some (order.getD k 0) := by
      rw [List.getD_eq_getElem _ _ (hlength ▸ hk), List.getElem?_eq_getElem (hlength ▸ hk)]
    unfold Shuffler.placeOf
    rw [hitems.cell, hget, Shuffler.salt_congr shuffler hcommon]
    rfl
  have hlt : ∀ k < S.rowCount s, order.getD k 0 < S.rowCount s := by
    intro k hk
    rw [List.getD_eq_getElem _ _ (hlength ▸ hk)]
    exact List.mem_range.mp (hperm.mem_iff.mp (List.getElem_mem _))
  have hslotsT := @Shuffler.slots_perm _ spec shuffler t
  rw [hcount] at hslotsT
  have hmapped : ((shuffler.slots T spec t).map fun j => order.getD j 0).Perm (List.range (S.rowCount s)) := by
    refine (hslotsT.map _).trans ?_
    have heq : (List.range (S.rowCount s)).map (fun j => order.getD j 0) = order := by
      refine List.ext_getElem (by simp [hlength]) fun i hi hi' => ?_
      simp [List.getElem?_eq_getElem hi']
    rw [heq]
    exact hperm
  refine @List.Perm.eq_of_pairwise _
    (fun i j => place (shuffler.placeOf S spec s i) ≤ place (shuffler.placeOf S spec s j)) _ _ ?_ ?_
    (shuffler.slots_pairwise s) (hmapped.trans (shuffler.slots_perm s).symm)
  · intro i j hi hj hij hji
    have hi := List.mem_range.mp (hmapped.mem_iff.mp hi)
    have hj := List.mem_range.mp ((shuffler.slots_perm s).mem_iff.mp hj)
    by_contra hne
    exact hplaces i hi j hj hne (Shuffler.placeOf_inj (le_antisymm hij hji))
  · refine List.pairwise_map.mpr ((shuffler.slots_pairwise t).imp_of_mem fun {i j} hi hj h => ?_)
    rwa [hmoved i (List.mem_range.mp (hslotsT.mem_iff.mp hi)), hmoved j (List.mem_range.mp (hslotsT.mem_iff.mp hj))] at h

/-- Items at one place stay in their order. -/
theorem Shuffler.slots_same_place {shuffler : Shuffler} (h : ∀ i < S.rowCount s, ∀ j < S.rowCount s,
    shuffler.placeOf S spec s i = shuffler.placeOf S spec s j) : shuffler.slots S spec s = List.range (S.rowCount s) := by
  have hsorted := ordered_pairwise (fun i => toLex (place (shuffler.placeOf S spec s i), i)) (S.rowCount s)
  rw [← Shuffler.slots_eq] at hsorted
  have hperm := @Shuffler.slots_perm _ spec shuffler s
  refine List.Perm.eq_of_pairwise (fun i j _ _ => le_antisymm) ?_ (List.pairwise_lt_range.imp fun h => h.le) hperm
  refine hsorted.imp_of_mem fun {i j} hi hj hij => ?_
  have hplace := h i (List.mem_range.mp (hperm.mem_iff.mp hi)) j (List.mem_range.mp (hperm.mem_iff.mp hj))
  rcases Prod.Lex.toLex_le_toLex.mp hij.1 with hlt | hle
  · exact absurd hlt (by rw [hplace]; exact lt_irrefl _)
  · exact hle.2

/-! ## Main results -/

/-- Two frames hold the same items in the same order. -/
structure SameItems {S T : FrameStorage} (s : FrameState S.σ) (t : FrameState T.σ) : Prop where
  rowCount : T.rowCount t = S.rowCount s
  cell : ∀ k f, T.cell t.items k f = S.cell s.items k f

/-- In both storages: a column of numbers is sorted in its direction, and stably; a value that is no number leaves the
frame as it is; a shuffle permutes the items; and it brings the same items to the same order where their ranks and numbers
tell them apart. -/
theorem items_reordered (S T : FrameStorage) (op : String) (spec : InputFieldSpec) :
    (∀ (sorter : Sorter) (s : FrameState S.σ) (vals : List Binary64), sorter.order = "asc" ∨ sorter.order = "desc" →
      column S spec s sorter.field = vals.map .number → .nan ∉ vals →
        ∃ before order t, sorter.before? = some before ∧ S.apply sorter.execute op spec s = .ok t ∧
          order.Perm (List.range (S.rowCount s)) ∧ S.Gathered s order t ∧ InDirection before vals order) ∧
      (∀ (sorter : Sorter) (s : FrameState S.σ), (∃ v ∈ column S spec s sorter.field, ∀ d, v ≠ .number d) →
        ∃ e, S.apply sorter.execute op spec s = .fail e s) ∧
      (∀ (shuffler : Shuffler) (s : FrameState S.σ), ∃ order t, S.apply shuffler.execute op spec s = .ok t ∧
        order.Perm (List.range (S.rowCount s)) ∧ S.Gathered s order t) ∧
      ∀ (shuffler : Shuffler) (s : FrameState S.σ) (t : FrameState T.σ) (order : List Nat),
        order.Perm (List.range (S.rowCount s)) → S.Gathered s order t → t.common = s.common →
          (∀ i < S.rowCount s, ∀ j < S.rowCount s, i ≠ j →
            shuffler.placeOf S spec s i ≠ shuffler.placeOf S spec s j) →
            ∃ s' t', S.apply shuffler.execute op spec s = .ok s' ∧ T.apply shuffler.execute op spec t = .ok t' ∧
              SameItems s' t' := by
  refine ⟨fun sorter s vals hdir hcolumn hnan => Sorter.execute_eq hdir hcolumn hnan,
    fun sorter s h => Sorter.execute_error h, fun shuffler s => ?_, fun shuffler s t order hperm hitems hcommon hplaces => ?_⟩
  · obtain ⟨t, ht, hgathered⟩ := shuffler.execute_eq op spec s
    exact ⟨_, t, ht, shuffler.slots_perm s, hgathered⟩
  · obtain ⟨s', hs', hgathered⟩ := shuffler.execute_eq op spec s
    obtain ⟨t', ht', hgathered'⟩ := shuffler.execute_eq op spec t
    have hmoved := @Shuffler.slots_moved _ _ spec shuffler _ _ _ hperm hitems hcommon hplaces
    refine ⟨s', t', hs', ht', ?_, fun k f => ?_⟩
    · rw [hgathered.rowCount, hgathered'.rowCount, ← hmoved, List.length_map]
    · rw [hgathered.cell, hgathered'.cell, ← hmoved, List.getElem?_map]
      cases hk : (shuffler.slots T spec t)[k]? with
      | none => rfl
      | some j =>
        have hj := List.mem_range.mp ((shuffler.slots_perm t).mem_iff.mp (List.mem_of_getElem? hk))
        rw [hitems.rowCount] at hj
        rw [Option.bind_some, Option.map_some, Option.bind_some, hitems.cell, List.getElem?_eq_getElem hj,
          List.getD_eq_getElem _ _ hj, Option.bind_some]

end

/-- A frame of items with one field. -/
def oneField (field : String) (vals : List Variant) : RowFrame :=
  ⟨∅, vals.map fun v => (∅ : Row).insert field v, []⟩

theorem items_reordered_two :
    (∃ before order t, (Sorter.mk "score" "asc").before? = some before ∧
      FrameStorage.row.apply (Sorter.mk "score" "asc").execute "sort" {}
        (oneField "score" [.number (.ofInt 2), .number (.ofInt 1)]) = .ok t ∧
      order.Perm (List.range 2) ∧
      @FrameStorage.Gathered .row (oneField "score" [.number (.ofInt 2), .number (.ofInt 1)]) order .row t ∧
      InDirection before [.ofInt 2, .ofInt 1] order) ∧
    (∃ e, FrameStorage.row.apply (Sorter.mk "score" "asc").execute "sort" {} (oneField "score" [.null]) =
      .fail e (oneField "score" [.null])) ∧
    ∃ s' t', FrameStorage.row.apply (Shuffler.mk [] "id").execute "shuffle" {} (oneField "id" [.string "a", .string "b"]) =
        .ok s' ∧
      FrameStorage.row.apply (Shuffler.mk [] "id").execute "shuffle" {} (oneField "id" [.string "b", .string "a"]) =
        .ok t' ∧
      @SameItems .row .row s' t' := by
  refine ⟨?_, ?_, ?_⟩
  · have hcolumn : column .row {} (oneField "score" [.number (.ofInt 2), .number (.ofInt 1)]) "score" =
        [.number (.ofInt 2), .number (.ofInt 1)] := by decide +kernel
    have hnan : .nan ∉ [Binary64.ofInt 2, .ofInt 1] := by decide +kernel
    exact (items_reordered .row .row "sort" {}).1 ⟨"score", "asc"⟩
      (oneField "score" [.number (.ofInt 2), .number (.ofInt 1)]) [.ofInt 2, .ofInt 1] (Or.inl rfl) hcolumn hnan
  · have hcolumn : column .row {} (oneField "score" [.null]) "score" = [.null] := by decide +kernel
    have hnull : ∃ v ∈ column .row {} (oneField "score" [.null]) "score", ∀ d, v ≠ .number d := by
      rw [hcolumn]
      refine ⟨.null, List.mem_singleton_self _, fun d h => ?_⟩
      cases h
    obtain ⟨-, herror, -⟩ := items_reordered .row .row "sort" {}
    exact herror ⟨"score", "asc"⟩ (oneField "score" [.null]) hnull
  · refine (items_reordered .row .row "shuffle" {}).2.2.2 ⟨[], "id"⟩ (oneField "id" [.string "a", .string "b"])
      (oneField "id" [.string "b", .string "a"]) [1, 0] ?_ ?_ rfl ?_
    · exact List.Perm.swap 0 1 []
    · refine ⟨rfl, fun k f => ?_⟩
      rcases k with - | - | k
      · rfl
      · rfl
      · rfl
    · intro i hi j hj hne
      have hcases : i = 0 ∧ j = 1 ∨ i = 1 ∧ j = 0 := by
        have hi : i < 2 := hi
        have hj : j < 2 := hj
        omega
      rcases hcases with ⟨rfl, rfl⟩ | ⟨rfl, rfl⟩
      · decide +kernel
      · decide +kernel

/-- Two names with different hashes that are one double: the order of the items decides. -/
theorem shuffle_keeps_collision :
    let a : Variant := .string "rcwtybjtuawk"
    let b : Variant := .string "iajqhsrctrlf"
    (hashAndId [Json.ascii '|'] a).1 ≠ (hashAndId [Json.ascii '|'] b).1 ∧
      ∃ s' t', FrameStorage.row.apply (Shuffler.mk [] "id").execute "shuffle" {} (oneField "id" [a, b]) = .ok s' ∧
        FrameStorage.row.apply (Shuffler.mk [] "id").execute "shuffle" {} (oneField "id" [b, a]) = .ok t' ∧
        ¬ @SameItems .row .row s' t' := by
  intro a b
  have hplace : ∀ vals : List Variant, vals = [a, b] ∨ vals = [b, a] → ∀ i < 2, ∀ j < 2,
      (Shuffler.mk [] "id").placeOf .row {} (oneField "id" vals) i =
        (Shuffler.mk [] "id").placeOf .row {} (oneField "id" vals) j := by
    rintro vals (rfl | rfl)
    · decide +kernel
    · decide +kernel
  refine ⟨by decide +kernel, ?_⟩
  obtain ⟨s', hs', hs⟩ := (Shuffler.mk [] "id").execute_eq "shuffle" {} (show FrameState FrameStorage.row.σ from oneField "id" [a, b])
  obtain ⟨t', ht', ht⟩ := (Shuffler.mk [] "id").execute_eq "shuffle" {} (show FrameState FrameStorage.row.σ from oneField "id" [b, a])
  have hslots : ∀ vals : List Variant, vals = [a, b] ∨ vals = [b, a] →
      (Shuffler.mk [] "id").slots .row {} (oneField "id" vals) = [0, 1] := by
    intro vals hvals
    have hcount : FrameStorage.row.rowCount (oneField "id" vals) = 2 := by rcases hvals with rfl | rfl <;> rfl
    have hslots := @Shuffler.slots_same_place .row {} (oneField "id" vals) ⟨[], "id"⟩ (hcount ▸ hplace vals hvals)
    rw [hslots, hcount]
    rfl
  rw [hslots _ (Or.inl rfl)] at hs
  rw [hslots _ (Or.inr rfl)] at ht
  refine ⟨s', t', hs', ht', fun h => ?_⟩
  have hcell := h.cell 0 "id"
  rw [hs.cell, ht.cell] at hcell
  exact absurd hcell (by decide +kernel)

end Pineapple.Reorder
