import Pineapple.JavaText

/-! # Redis keys, members and parameters of a request (`TransformRedisGet`, `TransformRedisSet`, `TemplateResolver`)

The texts of common fields become keys, members of sets and lists, and string parameters. A request that both engines
decode leads to the same ones exactly where the fields that are used have one text. -/

namespace Pineapple

open GoFormat (sprint sprintAll goUnits SprintsAlike)
open Json (Numeral)

/-! ## The operators -/

/-- `key_prefix`: a text, or the field that its marker names. -/
inductive KeyPrefix where
  | text (s : String)
  | field (name : String)

def KeyPrefix.fields : KeyPrefix → List String
  | .text _ => []
  | .field name => [name]

namespace RedisJava

/-- `buildKeySuffix`. -/
def buildKeySuffix (common : String → JavaValue) : List String → Units
  | [] => []
  | [field] => sprint (common field)
  | fields => List.intercalate (utf16 [':']) (fields.map fun field => sprint (common field))

/-- `TemplateResolver.resolve` for a string parameter; a field without a value is an error. -/
def resolve (common : String → JavaValue) (field : String) : Option Units :=
  match common field with
  | .null => none
  | v => some (sprint v)

/-- The key of `execute`. -/
def key (keyPrefix : KeyPrefix) (common : String → JavaValue) (fields : List String) : Option Units :=
  match keyPrefix with
  | .text s => some (utf16 s.toList ++ buildKeySuffix common fields)
  | .field name => (resolve common name).map (· ++ buildKeySuffix common fields)

/-- `toStringList`. -/
def toStringList : JavaValue → Option (List Units)
  | .list xs => some (sprintAll xs)
  | _ => none

end RedisJava

namespace RedisGo

/-- `ResolveTemplatedParams` for a string parameter. -/
def resolve (common : String → Variant) (field : String) : Option String :=
  match common field with
  | .null => none
  | v => some (goSprintValue v)

/-- The key of `Execute`. -/
def key (keyPrefix : KeyPrefix) (common : String → Variant) (fields : List String) : Option String :=
  match keyPrefix with
  | .text s => some (s ++ goBuildKeySuffix common fields)
  | .field name => (resolve common name).map (· ++ goBuildKeySuffix common fields)

/-- `toStringSlice`. -/
def toStringSlice : Variant → Option (List String)
  | .array xs => some (goSprintArray xs)
  | _ => none

end RedisGo

/-- The common fields of a request that both engines decode; a field that is missing is null. -/
structure CommonFields where
  spelled : String → Spelled
  decoded : String → Variant
  decodes : ∀ field, goDecode (spelled field) = some (decoded field)

namespace CommonFields

def java (r : CommonFields) (field : String) : JavaValue := jackson (r.spelled field)

/-- What the engines write to Redis, read from it and hand to an operator is the same. -/
structure SameTexts (r : CommonFields) (keyPrefix : KeyPrefix) (fields : List String) (member param : String) :
    Prop where
  key : RedisJava.key keyPrefix r.java fields = (RedisGo.key keyPrefix r.decoded fields).map fun s => utf16 s.toList
  members : RedisJava.toStringList (r.java member) =
    (RedisGo.toStringSlice (r.decoded member)).map (·.map fun s => utf16 s.toList)
  parameter : RedisJava.resolve r.java param = (RedisGo.resolve r.decoded param).map fun s => utf16 s.toList

/-- The values that become texts have one text each. -/
structure OneTextEach (r : CommonFields) (keyPrefix : KeyPrefix) (fields : List String) (member param : String) :
    Prop where
  key : (∃ name, keyPrefix = .field name ∧ r.spelled name = .null) ∨
    ∀ field ∈ keyPrefix.fields ++ fields, SprintsAlike (r.spelled field)
  members : ∀ xs, r.spelled member = .array xs → ∀ x ∈ xs, SprintsAlike x
  parameter : SprintsAlike (r.spelled param)

variable (r : CommonFields)

theorem oneText (field : String) : GoFormat.OneText (r.spelled field) (r.decoded field) :=
  GoFormat.oneText _ (r.decodes field)

/-! ## Keys -/

/-- The suffix is a joined text for any number of fields. -/
theorem buildKeySuffix_eq (common : String → JavaValue) (fields : List String) :
    RedisJava.buildKeySuffix common fields =
      List.intercalate (utf16 [':']) (fields.map fun field => sprint (common field)) := by
  rcases fields with _ | ⟨field, _ | ⟨next, rest⟩⟩
  · rfl
  · rw [RedisJava.buildKeySuffix, List.map_singleton, List.intercalate_singleton]
  · rfl

theorem goBuildKeySuffix_units (fields : List String) : utf16 (goBuildKeySuffix r.decoded fields).toList =
    List.intercalate (utf16 [':']) (fields.map fun field => goUnits (r.decoded field)) := by
  have hjoin : goBuildKeySuffix r.decoded fields =
      ":".intercalate (fields.map fun field => goSprintValue (r.decoded field)) := by
    rcases fields with _ | ⟨field, _ | ⟨next, rest⟩⟩
    · rfl
    · rw [goBuildKeySuffix, List.map_singleton, String.intercalate_singleton]
    · rfl
  rw [hjoin, GoFormat.utf16_intercalate, List.map_map]
  rfl

theorem suffix_alike (fields : List String) :
    EqOrDiverge (RedisJava.buildKeySuffix r.java fields) (utf16 (goBuildKeySuffix r.decoded fields).toList) ∧
      (RedisJava.buildKeySuffix r.java fields = utf16 (goBuildKeySuffix r.decoded fields).toList ↔
        ∀ field ∈ fields, SprintsAlike (r.spelled field)) := by
  have halike : ∀ p ∈ fields.map (fun field => (sprint (r.java field), goUnits (r.decoded field))),
      EqOrDiverge p.1 p.2 := by
    intro p hp
    obtain ⟨field, -, rfl⟩ := List.mem_map.mp hp
    exact (r.oneText field).alike
  obtain ⟨hjoined, hjoined'⟩ := EqOrDiverge.intercalate (utf16 [':']) halike
  rw [List.map_map, List.map_map] at hjoined hjoined'
  rw [buildKeySuffix_eq, goBuildKeySuffix_units]
  refine ⟨hjoined, hjoined'.trans ?_⟩
  rw [List.forall_mem_map]
  exact forall₂_congr fun field _ => (r.oneText field).eq_iff

/-- Null is decoded to null, and nothing else is. -/
theorem resolve_cases (field : String) :
    (r.spelled field = .null ∧ RedisJava.resolve r.java field = none ∧ RedisGo.resolve r.decoded field = none) ∨
      (r.spelled field ≠ .null ∧ RedisJava.resolve r.java field = some (sprint (r.java field)) ∧
        RedisGo.resolve r.decoded field = some (goSprintValue (r.decoded field))) := by
  have hdecodes := r.decodes field
  unfold RedisJava.resolve RedisGo.resolve java
  cases hj : r.spelled field with
  | null =>
    rw [hj, goDecode] at hdecodes
    rw [← Option.some.inj hdecodes, jackson]
    exact Or.inl ⟨rfl, rfl, rfl⟩
  | bool b =>
    rw [hj, goDecode] at hdecodes
    rw [← Option.some.inj hdecodes, jackson]
    exact Or.inr ⟨by rintro ⟨⟩, rfl, rfl⟩
  | string s =>
    rw [hj, goDecode] at hdecodes
    rw [← Option.some.inj hdecodes, jackson]
    exact Or.inr ⟨by rintro ⟨⟩, rfl, rfl⟩
  | number n =>
    rw [hj, goDecode] at hdecodes
    obtain ⟨_, -, hv⟩ := Option.map_eq_some_iff.mp hdecodes
    rw [← hv, jackson]
    exact Or.inr ⟨by rintro ⟨⟩, rfl, rfl⟩
  | array xs =>
    rw [hj, goDecode] at hdecodes
    obtain ⟨_, -, hv⟩ := Option.map_eq_some_iff.mp hdecodes
    rw [← hv, jackson]
    exact Or.inr ⟨by rintro ⟨⟩, rfl, rfl⟩
  | object es =>
    rw [hj, goDecode] at hdecodes
    obtain ⟨_, -, hv⟩ := Option.map_eq_some_iff.mp hdecodes
    rw [← hv, jackson]
    exact Or.inr ⟨by rintro ⟨⟩, rfl, rfl⟩

theorem resolve_iff (field : String) :
    RedisJava.resolve r.java field = (RedisGo.resolve r.decoded field).map (fun s => utf16 s.toList) ↔
      SprintsAlike (r.spelled field) := by
  rcases r.resolve_cases field with ⟨hnull, hjava, hgo⟩ | ⟨-, hjava, hgo⟩
  · rw [hjava, hgo, hnull]
    exact iff_of_true rfl .null
  · rw [hjava, hgo, Option.map_some, Option.some_inj]
    exact (r.oneText field).eq_iff

theorem utf16_append_toList (s t : String) : utf16 (s ++ t).toList = utf16 s.toList ++ utf16 t.toList := by
  rw [String.toList_append, GoFormat.utf16_append]

theorem key_iff (keyPrefix : KeyPrefix) (fields : List String) :
    RedisJava.key keyPrefix r.java fields = (RedisGo.key keyPrefix r.decoded fields).map (fun s => utf16 s.toList) ↔
      (∃ name, keyPrefix = .field name ∧ r.spelled name = .null) ∨
        ∀ field ∈ keyPrefix.fields ++ fields, SprintsAlike (r.spelled field) := by
  obtain ⟨hsuffix, hsuffix'⟩ := r.suffix_alike fields
  cases keyPrefix with
  | text s =>
    have hkey : RedisJava.key (.text s) r.java fields = some (utf16 s.toList ++ RedisJava.buildKeySuffix r.java fields) :=
      rfl
    have hgo : RedisGo.key (.text s) r.decoded fields = some (s ++ goBuildKeySuffix r.decoded fields) := rfl
    rw [hkey, hgo, Option.map_some, Option.some_inj, utf16_append_toList, List.append_right_inj, hsuffix']
    exact ⟨Or.inr, fun h => h.resolve_left fun ⟨name, hname, _⟩ => nomatch hname⟩
  | field name =>
    have hkey : RedisJava.key (.field name) r.java fields =
      (RedisJava.resolve r.java name).map (· ++ RedisJava.buildKeySuffix r.java fields) := rfl
    have hgo : RedisGo.key (.field name) r.decoded fields =
      (RedisGo.resolve r.decoded name).map (· ++ goBuildKeySuffix r.decoded fields) := rfl
    rw [hkey, hgo]
    rcases r.resolve_cases name with ⟨hnull, hjava, hgo⟩ | ⟨hne, hjava, hgo⟩
    · rw [hjava, hgo]
      exact iff_of_true rfl (Or.inl ⟨name, rfl, hnull⟩)
    · obtain ⟨-, hboth⟩ := (r.oneText name).alike.append hsuffix
      rw [hjava, hgo, Option.map_some, Option.map_some, Option.map_some, Option.some_inj, utf16_append_toList]
      have hfields : KeyPrefix.fields (.field name) ++ fields = name :: fields := rfl
      rw [hfields, List.forall_mem_cons, ← (r.oneText name).eq_iff, ← hsuffix', ← hboth]
      refine ⟨Or.inr, fun h => h.resolve_left ?_⟩
      rintro ⟨other, hother, hnull⟩
      cases hother
      exact hne hnull

/-! ## Members -/

theorem all_iff {xs : List Spelled} {vs : List Variant} (h : goDecodeArray xs = some vs) :
    sprintAll (jacksonArray xs) = (goSprintArray vs).map (fun s => utf16 s.toList) ↔ ∀ x ∈ xs, SprintsAlike x := by
  have hall := GoFormat.oneText_all xs h
  clear h
  induction hall with
  | nil =>
    rw [jacksonArray, sprintAll, goSprintArray]
    exact iff_of_true rfl (List.forall_mem_nil _)
  | @cons x v xs vs hx _ ih =>
    rw [jacksonArray, sprintAll, goSprintArray, List.map_cons, List.cons.injEq, List.forall_mem_cons]
    exact and_congr hx.eq_iff ih

theorem members_iff (member : String) :
    RedisJava.toStringList (r.java member) =
        (RedisGo.toStringSlice (r.decoded member)).map (·.map fun s => utf16 s.toList) ↔
      ∀ xs, r.spelled member = .array xs → ∀ x ∈ xs, SprintsAlike x := by
  have hdecodes := r.decodes member
  unfold java
  cases hj : r.spelled member with
  | array xs =>
    rw [hj, goDecode] at hdecodes
    obtain ⟨vs, hvs, hv⟩ := Option.map_eq_some_iff.mp hdecodes
    rw [← hv, jackson]
    show some _ = Option.map _ (some _) ↔ _
    rw [Option.map_some, Option.some_inj, all_iff hvs]
    constructor
    · rintro h _ ⟨⟩
      exact h
    · exact fun h => h xs rfl
  | null =>
    rw [hj, goDecode] at hdecodes
    rw [← Option.some.inj hdecodes, jackson]
    exact iff_of_true rfl (by rintro _ ⟨⟩)
  | bool b =>
    rw [hj, goDecode] at hdecodes
    rw [← Option.some.inj hdecodes, jackson]
    exact iff_of_true rfl (by rintro _ ⟨⟩)
  | string s =>
    rw [hj, goDecode] at hdecodes
    rw [← Option.some.inj hdecodes, jackson]
    exact iff_of_true rfl (by rintro _ ⟨⟩)
  | number n =>
    rw [hj, goDecode] at hdecodes
    obtain ⟨_, -, hv⟩ := Option.map_eq_some_iff.mp hdecodes
    rw [← hv, jackson]
    exact iff_of_true rfl (by rintro _ ⟨⟩)
  | object es =>
    rw [hj, goDecode] at hdecodes
    obtain ⟨_, -, hv⟩ := Option.map_eq_some_iff.mp hdecodes
    rw [← hv, jackson]
    exact iff_of_true rfl (by rintro _ ⟨⟩)

/-! ## Requests -/

/-- Both engines make the same texts of a request exactly where each value they use has one text. -/
theorem texts_agree_iff (keyPrefix : KeyPrefix) (fields : List String) (member param : String) :
    r.SameTexts keyPrefix fields member param ↔ r.OneTextEach keyPrefix fields member param := by
  constructor
  · rintro ⟨hkey, hmembers, hparam⟩
    exact ⟨(r.key_iff keyPrefix fields).mp hkey, (r.members_iff member).mp hmembers, (r.resolve_iff param).mp hparam⟩
  · rintro ⟨hkey, hmembers, hparam⟩
    exact ⟨(r.key_iff keyPrefix fields).mpr hkey, (r.members_iff member).mpr hmembers, (r.resolve_iff param).mpr hparam⟩

/-- A numeral of seven digits. -/
def million : {n : Numeral // n.Rfc} :=
  ⟨⟨false, "1000000".toList.map Json.ascii, none, none⟩,
    ⟨by decide, nofun, nofun, nofun, nofun⟩, Or.inr ⟨Json.ascii '1', _, rfl, by decide⟩, nofun, nofun⟩

theorem goNumber_million : goNumber million.val = some (Binary64.ofInt 1000000) := by decide +kernel

/-- A request whose fields are all `1000000`. -/
def millions : CommonFields where
  spelled _ := .number million
  decoded _ := .number (Binary64.ofInt 1000000)
  decodes _ := by
    rw [goDecode, goNumber_million]
    rfl

/-- Java reads `user:1000000` where Go reads `user:1e+06`. -/
theorem keys_differ :
    RedisJava.key (.text "user:") millions.java ["user_id"] = some (utf16 "user:1000000".toList) ∧
      RedisGo.key (.text "user:") millions.decoded ["user_id"] = some "user:1e+06" ∧
      ¬ millions.SameTexts (.text "user:") ["user_id"] "user_id" "user_id" := by
  have hjava : RedisJava.key (.text "user:") millions.java ["user_id"] = some (utf16 "user:1000000".toList) := by
    have hsprint : GoFormat.sprintNumber (jacksonNumber million.val) = "1000000".toList := by decide +kernel
    show some (utf16 "user:".toList ++ sprint (jackson (.number million))) = _
    rw [jackson, sprint, hsprint]
    rfl
  have hgo : RedisGo.key (.text "user:") millions.decoded ["user_id"] = some "user:1e+06" := by
    have hprint : formatFloat (Binary64.ofInt 1000000) = "1e+06" := by decide +kernel
    show some ("user:" ++ goSprintValue (.number (Binary64.ofInt 1000000))) = _
    rw [goSprintValue, hprint]
    rfl
  refine ⟨hjava, hgo, fun h => ?_⟩
  have hkey := h.key
  rw [hjava, hgo] at hkey
  exact absurd hkey (by decide +kernel)

end CommonFields
end Pineapple
