import Pineapple.TemplateNumber
import Mathlib.Data.List.Sort

/-! # Rendered values (`sprint_value`, `filter_condition`, `build_key_suffix`)

`filter_condition` compares values by their texts, and the keys of the Redis operators are made of texts. The C++ engine
has its own rendering; Go has that of `fmt`. -/

namespace Pineapple

/-! ## The renderings -/

/-- `sprint_value`. -/
def sprintValue : Variant → String
  | .null => "<nil>"
  | .bool b => if b then "true" else "false"
  | .number d => goFormatG d
  | .string s => s
  | _ => "<complex>"

mutual
/-- `fmt.Sprint` and `%v` of a decoded JSON value. -/
def goSprintValue : Variant → String
  | .null => "<nil>"
  | .bool b => if b then "true" else "false"
  | .number d => formatFloat d
  | .string s => s
  | .array xs => "[" ++ " ".intercalate (goSprintArray xs) ++ "]"
  | .object es =>
    let entries := (goSprintEntries es).insertionSort fun a b => a.1 ≤ b.1
    "map[" ++ " ".intercalate (entries.map fun e => e.1 ++ ":" ++ e.2) ++ "]"

def goSprintArray : List Variant → List String
  | [] => []
  | x :: xs => goSprintValue x :: goSprintArray xs

def goSprintEntries : List (String × Variant) → List (String × String)
  | [] => []
  | (k, v) :: es => (k, goSprintValue v) :: goSprintEntries es
end

def Variant.isComposite : Variant → Bool
  | array _ => true
  | object _ => true
  | _ => false

/-! ## Where they are used -/

/-- The loop of `filter_condition`: the indices of the values whose text is the wanted one. -/
def removedWhere (render : Variant → String) (want : String) (column : List Variant) : List Nat :=
  (List.range column.length).filter fun i => column[i]?.any fun v => render v = want

/-- `FilterConditionOp`: `init` and `execute`. -/
def filterCondition (params : SortedMap String Variant) (column : List Variant) : Except PineError (List Nat) :=
  match params.find? "value" with
  | none => .error (.execution "" "filter_condition: missing required param 'value'")
  | some value => .ok (removedWhere sprintValue (sprintValue value) column)

/-- `ConditionOp`: `Init` and `Execute`. -/
def goFilterCondition (params : SortedMap String Variant) (column : List Variant) : Except String (List Nat) :=
  match params.find? "value" with
  | none => .error "filter_condition: missing required param 'value'"
  | some value => .ok (removedWhere goSprintValue (goSprintValue value) column)

/-- `build_key_suffix`. -/
def buildKeySuffix (common : String → Variant) (fields : List String) : String :=
  ":".intercalate (fields.map fun field => sprintValue (common field))

/-- `buildKeySuffix` of Go. -/
def goBuildKeySuffix (common : String → Variant) : List String → String
  | [] => ""
  | [field] => goSprintValue (common field)
  | fields => ":".intercalate (fields.map fun field => goSprintValue (common field))

/-- The pairs of values that compare alike in both engines. -/
inductive ComparesAlike (want : Variant) (v : Variant) : Prop
  | scalars : want.isComposite = false → v.isComposite = false → ComparesAlike want v
  | composites : want.isComposite = true → v.isComposite = true → goSprintValue v = goSprintValue want →
      ComparesAlike want v
  | wanted : want.isComposite = true → v.isComposite = false → v ≠ .string "<complex>" →
      v ≠ .string (goSprintValue want) → ComparesAlike want v
  | found : want.isComposite = false → v.isComposite = true → want ≠ .string "<complex>" →
      want ≠ .string (goSprintValue v) → ComparesAlike want v

/-! ## Values that are neither array nor object -/

theorem sprintValue_eq {v : Variant} (h : v.isComposite = false) : sprintValue v = goSprintValue v := by
  cases v with
  | number d => exact (goFormatG_eq d).trans (by rw [goSprintValue])
  | array xs => cases h
  | object es => cases h
  | _ => rw [goSprintValue, sprintValue]

theorem sprintValue_composite {v : Variant} (h : v.isComposite = true) : sprintValue v = "<complex>" := by
  cases v with
  | array xs => rfl
  | object es => rfl
  | _ => cases h

def isNumberChar (c : Char) : Bool := c.isDigit || c = '.' || c = 'e' || c = '+' || c = '-'

theorem decimal_chars (n : Nat) : ∀ c ∈ decimal n, isNumberChar c = true := by
  intro c hc
  unfold isNumberChar
  rw [List.all_eq_true.mp (decimal_digits n) c hc]
  rfl

theorem placed_chars {digits : List Char} (h : ∀ c ∈ digits, isNumberChar c = true) (e : Int) :
    ∀ c ∈ placed digits e, isNumberChar c = true := by
  have hzeros : ∀ n, ∀ c ∈ List.replicate n '0', isNumberChar c = true := fun n c hc => by
    rw [List.eq_of_mem_replicate hc]
    rfl
  have hexponent : ∀ c ∈ exponentText e, isNumberChar c = true := by
    intro c hc
    unfold exponentText at hc
    rcases List.mem_cons.mp hc with rfl | hc
    · rfl
    · rcases List.mem_cons.mp hc with rfl | hc
      · split <;> rfl
      · split at hc
        · rcases List.mem_cons.mp hc with rfl | hc
          · rfl
          · exact decimal_chars _ c hc
        · exact decimal_chars _ c hc
  have hpointed : ∀ c ∈ pointed digits, isNumberChar c = true := by
    intro c hc
    unfold pointed at hc
    rcases List.mem_append.mp hc with hc | hc
    · exact h c (List.mem_of_mem_take hc)
    · split at hc
      · rcases List.mem_cons.mp hc with rfl | hc
        · rfl
        · exact h c (List.mem_of_mem_drop hc)
      · cases hc
  intro c hc
  unfold placed at hc
  split at hc
  · exact (List.mem_append.mp hc).elim (hpointed c) (hexponent c)
  · dsimp only at hc
    split at hc
    · rcases List.mem_cons.mp hc with rfl | hc
      · rfl
      · rcases List.mem_cons.mp hc with rfl | hc
        · rfl
        · exact (List.mem_append.mp hc).elim (hzeros _ c) (h c)
    · split at hc
      · exact (List.mem_append.mp hc).elim (h c) (hzeros _ c)
      · rcases List.mem_append.mp hc with hc | hc
        · exact h c (List.mem_of_mem_take hc)
        · rcases List.mem_cons.mp hc with rfl | hc
          · rfl
          · exact h c (List.mem_of_mem_drop hc)

/-- A number's text has neither bracket. -/
theorem formatFloat_chars (d : Binary64) : '[' ∉ (formatFloat d).toList ∧ '<' ∉ (formatFloat d).toList := by
  cases d with
  | nan => decide
  | inf neg => cases neg <;> decide
  | finite f =>
    have hsign : ∀ c ∈ signOf f.neg, isNumberChar c = true := by
      intro c hc
      unfold signOf at hc
      split at hc
      · rw [List.mem_singleton.mp hc]
        rfl
      · cases hc
    have hall : ∀ c ∈ (formatFloat (.finite f)).toList, isNumberChar c = true := by
      intro c hc
      unfold formatFloat at hc
      dsimp only at hc
      split at hc
      · rw [String.toList_ofList] at hc
        rcases List.mem_append.mp hc with hc | hc
        · exact hsign c hc
        · rw [List.mem_singleton.mp hc]
          rfl
      · rw [String.toList_ofList] at hc
        exact (List.mem_append.mp hc).elim (hsign c) (placed_chars (decimal_chars _) _ c)
    exact ⟨fun h => absurd (hall _ h) (by decide), fun h => absurd (hall _ h) (by decide)⟩

/-! ## Arrays and objects -/

/-- Go's text of an array or an object starts with a bracket, or with the word before it. -/
theorem goSprintValue_composite {v : Variant} (h : v.isComposite = true) :
    '[' ∈ (goSprintValue v).toList ∧ ∃ c t, (goSprintValue v).toList = c :: t ∧ c ≠ '<' := by
  cases v with
  | array xs =>
    rw [goSprintValue, String.toList_append, String.toList_append]
    exact ⟨List.mem_cons_self, '[', _, rfl, by decide⟩
  | object es =>
    rw [goSprintValue, String.toList_append, String.toList_append]
    exact ⟨List.mem_append_left _ (List.mem_append_left _ (by decide)), 'm', _, rfl, by decide⟩
  | _ => cases h

/-- Only a string has a text that an array or an object has. -/
theorem eq_string_of_goSprintValue {v : Variant} (hv : v.isComposite = false) {s : String}
    (hs : '[' ∈ s.toList ∨ s = "<complex>") (h : goSprintValue v = s) : v = .string s := by
  cases v with
  | string t => rw [goSprintValue] at h; rw [h]
  | array xs => cases hv
  | object es => cases hv
  | null =>
    rw [goSprintValue] at h
    subst h
    revert hs
    decide
  | bool b =>
    rw [goSprintValue] at h
    subst h
    revert hs
    cases b <;> decide
  | number d =>
    rw [goSprintValue] at h
    obtain ⟨hbracket, hangle⟩ := formatFloat_chars d
    rw [h] at hbracket hangle
    rcases hs with hs | rfl
    · exact absurd hs hbracket
    · exact absurd hangle (by decide)

theorem goSprintValue_string (s : String) : goSprintValue (.string s) = s := by rw [goSprintValue]

theorem goSprintValue_ne_complex {v : Variant} (h : v.isComposite = true) : goSprintValue v ≠ "<complex>" := by
  obtain ⟨-, c, t, htext, hc⟩ := goSprintValue_composite h
  intro heq
  rw [heq] at htext
  exact hc (List.cons.inj (show '<' :: _ = c :: t from htext)).1.symm

/-! ## Comparisons -/

/-- An array or an object and a value of another kind have one text in neither engine, unless the value is the string
that is such a text. -/
theorem compares_mixed {w v : Variant} (hw : w.isComposite = true) (hv : v.isComposite = false) :
    (sprintValue v = sprintValue w ↔ goSprintValue v = goSprintValue w) ↔
      v ≠ .string "<complex>" ∧ v ≠ .string (goSprintValue w) := by
  rw [sprintValue_composite hw, sprintValue_eq hv]
  constructor
  · intro h
    constructor
    · rintro rfl
      exact goSprintValue_ne_complex hw (h.mp (goSprintValue_string _) ▸ goSprintValue_string _)
    · rintro rfl
      exact goSprintValue_ne_complex hw (goSprintValue_string _ ▸ h.mpr (goSprintValue_string _))
  · rintro ⟨hcomplex, htext⟩
    constructor
    · exact fun h => absurd (eq_string_of_goSprintValue hv (Or.inr rfl) h) hcomplex
    · exact fun h => absurd (eq_string_of_goSprintValue hv (Or.inl (goSprintValue_composite hw).1) h) htext

theorem comparesAlike_iff {want v : Variant} :
    (sprintValue v = sprintValue want ↔ goSprintValue v = goSprintValue want) ↔ ComparesAlike want v := by
  cases hw : want.isComposite with
  | false =>
    cases hv : v.isComposite with
    | false =>
      rw [sprintValue_eq hw, sprintValue_eq hv]
      exact iff_of_true Iff.rfl (.scalars hw hv)
    | true =>
      have hmixed := compares_mixed hv hw
      rw [eq_comm (a := sprintValue v), eq_comm (a := goSprintValue v), hmixed]
      constructor
      · exact fun h => .found hw hv h.1 h.2
      · rintro (⟨-, h⟩ | ⟨h, -, -⟩ | ⟨h, -, -, -⟩ | ⟨-, -, hcomplex, htext⟩)
        · exact absurd (hv.symm.trans h) nofun
        · exact absurd (hw.symm.trans h) nofun
        · exact absurd (hw.symm.trans h) nofun
        · exact ⟨hcomplex, htext⟩
  | true =>
    cases hv : v.isComposite with
    | false =>
      rw [compares_mixed hw hv]
      constructor
      · exact fun h => .wanted hw hv h.1 h.2
      · rintro (⟨h, -⟩ | ⟨-, h, -⟩ | ⟨-, -, hcomplex, htext⟩ | ⟨h, -, -, -⟩)
        · exact absurd (hw.symm.trans h) nofun
        · exact absurd (hv.symm.trans h) nofun
        · exact ⟨hcomplex, htext⟩
        · exact absurd (hw.symm.trans h) nofun
    | true =>
      rw [sprintValue_composite hw, sprintValue_composite hv, iff_true_left rfl]
      constructor
      · exact fun h => .composites hw hv h
      · rintro (⟨h, -⟩ | ⟨-, -, h⟩ | ⟨-, h, -, -⟩ | ⟨h, -, -, -⟩)
        · exact absurd (hw.symm.trans h) nofun
        · exact h
        · exact absurd (hv.symm.trans h) nofun
        · exact absurd (hw.symm.trans h) nofun

theorem removedWhere_eq_iff {render render' : Variant → String} {want want' : String} {column : List Variant} :
    removedWhere render want column = removedWhere render' want' column ↔
      ∀ v ∈ column, (render v = want ↔ render' v = want') := by
  unfold removedWhere
  constructor
  · intro h v hv
    obtain ⟨i, hi, hget⟩ := List.mem_iff_getElem.mp hv
    have hmem : ∀ (r : Variant → String) (w : String),
        i ∈ ((List.range column.length).filter fun i => column[i]?.any fun v => r v = w) ↔ r v = w := by
      intro r w
      rw [List.mem_filter, and_iff_right (List.mem_range.mpr hi), List.getElem?_eq_getElem hi, hget]
      exact decide_eq_true_iff
    rw [← hmem render want, h, hmem render' want']
  · intro h
    refine List.filter_congr fun i hi => ?_
    have hlt := List.mem_range.mp hi
    rw [List.getElem?_eq_getElem hlt]
    exact decide_eq_decide.mpr (h _ (List.getElem_mem hlt))

/-! ## Keys -/

/-- Up to the first array or object the texts agree, and there they differ. -/
theorem intercalate_eq_iff {values : List Variant} : ":".intercalate (values.map sprintValue) =
    ":".intercalate (values.map goSprintValue) ↔ ∀ v ∈ values, v.isComposite = false := by
  have hhead : ∀ {v : Variant} {s t : String}, v.isComposite = true → sprintValue v ++ s ≠ goSprintValue v ++ t := by
    intro v s t hv h
    obtain ⟨-, c, r, htext, hc⟩ := goSprintValue_composite hv
    rw [sprintValue_composite hv, ← String.toList_inj, String.toList_append, String.toList_append, htext] at h
    exact hc (List.cons.inj (show '<' :: _ = c :: _ from h)).1.symm
  induction values with
  | nil => exact iff_of_true rfl nofun
  | cons v values ih =>
    rw [List.forall_mem_cons]
    cases hv : v.isComposite with
    | true =>
      refine iff_of_false (fun h => ?_) nofun
      cases values with
      | nil =>
        rw [List.map_singleton, List.map_singleton, String.intercalate_singleton, String.intercalate_singleton,
          ← String.append_empty (s := sprintValue v), ← String.append_empty (s := goSprintValue v)] at h
        exact hhead hv h
      | cons w rest =>
        rw [List.map_cons, List.map_cons, List.map_cons, List.map_cons, String.intercalate_cons_cons,
          String.intercalate_cons_cons, String.append_assoc, String.append_assoc] at h
        exact hhead hv h
    | false =>
      rw [and_iff_right rfl]
      refine Iff.trans ?_ ih
      cases values with
      | nil =>
        rw [List.map_singleton, List.map_singleton, sprintValue_eq hv]
        exact iff_of_true rfl rfl
      | cons w rest =>
        rw [List.map_cons, List.map_cons, List.map_cons, List.map_cons, String.intercalate_cons_cons,
          String.intercalate_cons_cons, sprintValue_eq hv]
        exact String.append_right_inj _

theorem goBuildKeySuffix_eq (common : String → Variant) (fields : List String) : goBuildKeySuffix common fields =
    ":".intercalate (fields.map fun field => goSprintValue (common field)) := by
  rcases fields with - | ⟨field, - | ⟨_, _⟩⟩
  · rfl
  · rw [goBuildKeySuffix, List.map_singleton, String.intercalate_singleton]
  · rfl

/-! ## Main results -/

/-- The engines render a value alike exactly where it is neither array nor object. They compare two values alike where
both or none is one and Go gives them one text if both are; `filter_condition` removes the same items where all compared
pairs are such; and the keys are the same where no field holds an array or an object. -/
theorem rendered_alike_iff (v want : Variant) (params : SortedMap String Variant) (column : List Variant)
    (common : String → Variant) (keyPrefix : String) (fields : List String) :
    (sprintValue v = goSprintValue v ↔ v.isComposite = false) ∧
      ((sprintValue v = sprintValue want ↔ goSprintValue v = goSprintValue want) ↔ ComparesAlike want v) ∧
      ((filterCondition params column).mapError PineError.what = goFilterCondition params column ↔
        ∀ want, params.find? "value" = some want → ∀ v ∈ column, ComparesAlike want v) ∧
      (keyPrefix ++ buildKeySuffix common fields = keyPrefix ++ goBuildKeySuffix common fields ↔
        ∀ field ∈ fields, (common field).isComposite = false) := by
  refine ⟨⟨fun h => ?_, sprintValue_eq⟩, comparesAlike_iff, ?_, ?_⟩
  · refine Bool.eq_false_iff.mpr fun hv => ?_
    rw [sprintValue_composite hv] at h
    exact goSprintValue_ne_complex hv h.symm
  · unfold filterCondition goFilterCondition
    cases params.find? "value" with
    | none => exact iff_of_true rfl nofun
    | some want =>
      have hok : ∀ {a b : List Nat}, Except.mapError PineError.what (.ok a) = .ok b ↔ a = b := ⟨Except.ok.inj, congrArg _⟩
      rw [hok, removedWhere_eq_iff]
      simp only [comparesAlike_iff, Option.some.injEq, forall_eq']
  · have hfields := @intercalate_eq_iff (fields.map common)
    rw [List.map_map, List.map_map, List.forall_mem_map] at hfields
    rw [String.append_right_inj, goBuildKeySuffix_eq]
    exact hfields

/-- The C++ engine takes two arrays for one value: it removes `[2]` where `[1]` is to be removed, and gives both one
key. -/
theorem arrays_rendered_alike : ¬ (∀ v, sprintValue v = goSprintValue v) ∧
    sprintValue (.array [.string "1"]) = sprintValue (.array [.string "2"]) ∧
    goSprintValue (.array [.string "1"]) ≠ goSprintValue (.array [.string "2"]) ∧
    removedWhere sprintValue (sprintValue (.array [.string "1"])) [.array [.string "2"]] = [0] ∧
    removedWhere goSprintValue (goSprintValue (.array [.string "1"])) [.array [.string "2"]] = [] ∧
    buildKeySuffix (fun _ => .array [.string "1"]) ["ids"] ≠ goBuildKeySuffix (fun _ => .array [.string "1"]) ["ids"] := by
  refine ⟨fun h => absurd (h (.array [])) ?_, rfl, ?_, ?_, ?_, ?_⟩ <;> decide +kernel

end Pineapple
