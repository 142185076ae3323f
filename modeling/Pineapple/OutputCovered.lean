import Pineapple.ConfigLoad
import Pineapple.DagBuild
import Pineapple.OutputGates

/-! # Whether an accepted output stays within what the DAG assumes

The gates look at the operator's type and its field lists, `scan_fields` at the row-set markers. Where the
markers fit the type, an output that passes has only effects the scan has ordered. The loader lets markers
through that do not fit. -/

namespace Pineapple

/-! ## Effects -/

/-- What applying the output does to a field, `_row_set_` standing for the list of items. -/
inductive OperatorOutput.Effect (out : OperatorOutput) : Bool → String → Access → Prop
  | common {f} : out.commonWrites.contains f = true → out.Effect true f .mutating
  | existing {f} : f ∈ out.existingFields → out.Effect false f .mutating
  | added {f} : f ∈ out.addedFields → out.Effect false f .additive
  | add : out.calls .addItem = true → out.Effect false kRowSet .additive
  | remove : out.calls .removeItem = true → out.Effect false kRowSet .mutating
  | reorder : out.calls .setItemOrder = true → out.Effect false kRowSet .mutating

namespace OperatorConfig

/-- The scan counts the operator as a writer of the row set as a whole. -/
def WritesRowSet (op : OperatorConfig) : Prop := op.Accesses false kRowSet .mutating

/-- The scan orders an effect by the field itself, or for a rewritten `_source` by the row set: whoever
touches an item field touches the row set. -/
def Orders (op : OperatorConfig) (common : Bool) (f : String) (a : Access) : Prop :=
  op.Accesses common f a ∨
    (common = false ∧ f = sourceField ∧ sourceField ∈ op.metadata.itemInput ∧ op.WritesRowSet)

/-- The output stays within what the operator's configuration declares. -/
structure Covers (op : OperatorConfig) (out : OperatorOutput) : Prop where
  common : ∀ f, out.commonWrites.contains f = true → f ∈ op.metadata.commonOutput
  existing : ∀ f ∈ out.existingFields, f ∈ op.metadata.itemOutput ∨
    (f = sourceField ∧ op.mutatesRowSet = true ∧ sourceField ∈ op.metadata.itemInput)
  added : ∀ f ∈ out.addedFields, f ∈ op.metadata.itemOutput
  adds : out.calls .addItem = true → op.additiveWritesRowSet = true
  mutates : out.calls .removeItem = true ∨ out.calls .setItemOrder = true → op.WritesRowSet
  effects : ∀ common f a, out.Effect common f a → op.Orders common f a

/-- The markers fit the type: a recall adds rows, a filter, merge or reorder changes the row set, and a
transform that only adds rows writes no item field. -/
structure Marked (op : OperatorConfig) (t : OperatorType) : Prop where
  adds : t = .recall → op.additiveWritesRowSet = true
  mutates : t = .filter ∨ t = .merge ∨ t = .reorder → op.WritesRowSet
  writes : t = .transform → op.additiveWritesRowSet = true → op.metadata.itemOutput = []

/-- Every output that passes both gates is covered. -/
def GatesSuffice (op : OperatorConfig) (t : OperatorType) : Prop := ∀ out, out.Passes t op → op.Covers out

variable {op : OperatorConfig} {t : OperatorType} {out : OperatorOutput}

theorem WritesRowSet.additive (h : op.WritesRowSet) (hex : (op.additiveWritesRowSet && op.mutatesRowSet) = false) :
    op.additiveWritesRowSet = false := by
  unfold WritesRowSet at h
  cases h with
  | itemWrite _ ha => exact ha
  | rowSetMutate hm => rwa [hm, Bool.and_true] at hex

/-- Only an operator that writes the row set, or a field of its items, has a mutating access to an item field. -/
theorem Accesses.additive_of_mutating {f : String} (h : op.Accesses false f .mutating)
    (hex : (op.additiveWritesRowSet && op.mutatesRowSet) = false) : op.additiveWritesRowSet = false := by
  cases h with
  | itemWrite _ ha => exact ha
  | rowSetMutate hm => rwa [hm, Bool.and_true] at hex

end OperatorConfig

/-! ## What passing the gates means -/

theorem sourceRewriteAllowed_eq_true {mutatesRowSet : Bool} {itemInput : List String} :
    sourceRewriteAllowed mutatesRowSet itemInput = true ↔ mutatesRowSet = true ∧ sourceField ∈ itemInput := by
  unfold sourceRewriteAllowed
  rw [Bool.and_eq_true, List.contains_iff_mem]

namespace OperatorOutput
variable {op : OperatorConfig} {t : OperatorType} {out : OperatorOutput}

theorem Passes.not_calls (h : out.Passes t op) {m : Method} (hm : m ∈ t.forbidden) : out.calls m = false :=
  OperatorType.validateOutput_eq_none.mp h.type m hm

theorem Passes.allowed (h : out.Passes t op) {m : Method} (hc : out.calls m = true) : m ∉ t.forbidden :=
  fun hm => by rw [h.not_calls hm] at hc; exact Bool.false_ne_true hc

theorem calls_setItem_of_existing {f : String} (h : f ∈ out.existingFields) : out.calls .setItem = true := by
  unfold existingFields at h
  unfold calls
  rw [Bool.or_eq_true, Bool.not_eq_true', Bool.not_eq_true', List.isEmpty_eq_false_iff, List.isEmpty_eq_false_iff]
  rcases List.mem_append.mp h with h | h
  · exact Or.inl fun hnil => by rw [hnil] at h; exact absurd h List.not_mem_nil
  · exact Or.inr fun hnil => by rw [hnil] at h; exact absurd h List.not_mem_nil

theorem calls_addItem_of_added {f : String} (h : f ∈ out.addedFields) : out.calls .addItem = true := by
  unfold addedFields at h
  unfold calls
  rw [Bool.not_eq_true', List.isEmpty_eq_false_iff]
  exact fun hnil => by rw [hnil] at h; exact absurd h List.not_mem_nil

theorem Passes.type_of_addItem (h : out.Passes t op) (hc : out.calls .addItem = true) : t = .recall := by
  have hm := h.allowed hc
  cases t <;> first | rfl | exact absurd (by decide) hm

theorem Passes.type_of_rowSet (h : out.Passes t op)
    (hc : out.calls .removeItem = true ∨ out.calls .setItemOrder = true) : t = .filter ∨ t = .merge ∨ t = .reorder := by
  rcases hc with hc | hc
  all_goals
    have hm := h.allowed hc
    cases t <;> first | exact absurd (by decide) hm | exact Or.inl rfl | exact Or.inr (Or.inl rfl) | exact Or.inr (Or.inr rfl)

theorem Passes.type_of_setItem (h : out.Passes t op) (hc : out.calls .setItem = true) :
    t = .transform ∨ t = .merge := by
  have hm := h.allowed hc
  cases t <;> first | exact absurd (by decide) hm | exact Or.inl rfl | exact Or.inr rfl

end OperatorOutput

/-! ## The markers are what it takes -/

namespace OperatorConfig
variable {op : OperatorConfig} {t : OperatorType} {out : OperatorOutput}

/-- An operator that may write a field of existing items is no additive writer, unless it declares none. -/
theorem Marked.not_additive (h : op.Marked t) (hex : (op.additiveWritesRowSet && op.mutatesRowSet) = false)
    (ht : t = .transform ∨ t = .merge) (hout : op.metadata.itemOutput ≠ []) : op.additiveWritesRowSet = false := by
  rcases ht with rfl | rfl
  · by_contra ha
    exact hout (h.writes rfl (Bool.eq_true_of_not_eq_false ha))
  · exact (h.mutates (Or.inr (Or.inl rfl))).additive hex

theorem Marked.covers (h : op.Marked t) (hex : (op.additiveWritesRowSet && op.mutatesRowSet) = false)
    (hpass : out.Passes t op) : op.Covers out := by
  obtain ⟨hcommon, hexisting, hadded⟩ := declaredOutputsViolation_eq_none.mp hpass.declared
  rw [sourceRewriteAllowed_eq_true] at hexisting
  have hexisting : ∀ f ∈ out.existingFields, f ∈ op.metadata.itemOutput ∨
      (f = sourceField ∧ op.mutatesRowSet = true ∧ sourceField ∈ op.metadata.itemInput) :=
    fun f hf => (hexisting f hf).imp_right fun ⟨hr, hs⟩ => ⟨hs, hr⟩
  have hadds : out.calls .addItem = true → op.additiveWritesRowSet = true :=
    fun hc => h.adds (hpass.type_of_addItem hc)
  have hmutates : out.calls .removeItem = true ∨ out.calls .setItemOrder = true → op.WritesRowSet :=
    fun hc => h.mutates (hpass.type_of_rowSet hc)
  refine ⟨hcommon, hexisting, hadded, hadds, hmutates, fun common f a heff => ?_⟩
  cases heff with
  | common hf => exact Or.inl (.commonWrite (hcommon f hf))
  | existing hf =>
    rcases hexisting f hf with hout | ⟨rfl, hm, hin⟩
    · have ht := hpass.type_of_setItem (OperatorOutput.calls_setItem_of_existing hf)
      exact Or.inl (.itemWrite hout (h.not_additive hex ht (List.ne_nil_of_mem hout)))
    · exact Or.inr ⟨rfl, rfl, hin, .rowSetMutate hm⟩
  | added hf => exact Or.inl (.itemAdd (hadded f hf) (hadds (OperatorOutput.calls_addItem_of_added hf)))
  | add hc => exact Or.inl (.rowSetAdd (hadds hc))
  | remove hc => exact Or.inl (hmutates (Or.inl hc))
  | reorder hc => exact Or.inl (hmutates (Or.inr hc))

/-- An output that makes one call and writes no field passes where the type allows the call. -/
theorem passes_of_no_fields (htype : t.validateOutput out = none) (hc : out.commonWrites = ∅)
    (he : out.existingFields = []) (ha : out.addedFields = []) : out.Passes t op := by
  refine ⟨htype, declaredOutputsViolation_eq_none.mpr ⟨fun f hf => ?_, fun f hf => ?_, fun f hf => ?_⟩⟩
  · rw [hc] at hf
    exact absurd hf Bool.false_ne_true
  · rw [he] at hf
    exact absurd hf List.not_mem_nil
  · rw [ha] at hf
    exact absurd hf List.not_mem_nil

/-- The gates let everything through that a type allows, so the markers have to be there. -/
theorem GatesSuffice.marked (h : op.GatesSuffice t) (hex : (op.additiveWritesRowSet && op.mutatesRowSet) = false) :
    op.Marked t := by
  refine ⟨?_, ?_, ?_⟩
  · rintro rfl
    have hpass : ({ addedItems := [∅] } : OperatorOutput).Passes .recall op :=
      passes_of_no_fields (by decide) rfl rfl rfl
    exact (h _ hpass).adds rfl
  · rintro (rfl | rfl | rfl)
    · have hpass : ({ removedItems := SortedMap.ofList [(0, ())] } : OperatorOutput).Passes .filter op :=
        passes_of_no_fields (by decide) rfl rfl rfl
      exact (h _ hpass).mutates (Or.inl rfl)
    · have hpass : ({ removedItems := SortedMap.ofList [(0, ())] } : OperatorOutput).Passes .merge op :=
        passes_of_no_fields (by decide) rfl rfl rfl
      exact (h _ hpass).mutates (Or.inl rfl)
    · have hpass : ({ itemOrder := some [] } : OperatorOutput).Passes .reorder op :=
        passes_of_no_fields (by decide) rfl rfl rfl
      exact (h _ hpass).mutates (Or.inr rfl)
  · rintro rfl hadd
    by_contra hne
    obtain ⟨f, hf⟩ := List.exists_mem_of_ne_nil _ hne
    let out : OperatorOutput := { itemWrites := [⟨0, f, .null⟩] }
    have hpass : out.Passes .transform op := by
      refine ⟨OperatorType.validateOutput_eq_none.mpr ?_, declaredOutputsViolation_eq_none.mpr ⟨?_, ?_, ?_⟩⟩
      · intro m hm
        cases m <;> first | rfl | exact absurd hm (by decide)
      · exact fun g hg => absurd hg Bool.false_ne_true
      · intro g hg
        obtain rfl := List.mem_singleton.mp hg
        exact Or.inl hf
      · exact fun g hg => absurd hg List.not_mem_nil
    have heff : out.Effect false f .mutating := .existing (List.mem_singleton_self f)
    have hnot : op.additiveWritesRowSet = false := by
      rcases (h out hpass).effects false f .mutating heff with hacc | ⟨-, -, -, hrow⟩
      · exact hacc.additive_of_mutating hex
      · exact hrow.additive hex
    rw [hnot] at hadd
    exact absurd hadd Bool.false_ne_true

theorem gatesSuffice_iff (hex : (op.additiveWritesRowSet && op.mutatesRowSet) = false) :
    op.GatesSuffice t ↔ op.Marked t :=
  ⟨fun h => h.marked hex, fun h _ hpass => h.covers hex hpass⟩

end OperatorConfig

/-! ## What covered outputs do to each other -/

namespace OperatorConfig

/-- A field the operator touches, by its metadata or by its output. -/
def Touches (op : OperatorConfig) (out : OperatorOutput) (common : Bool) (f : String) (a : Access) : Prop :=
  op.Accesses common f a ∨ out.Effect common f a

/-- The operators, with their outputs, clash on some field. -/
def Clashes (a b : OperatorConfig) (outa outb : OperatorOutput) : Prop :=
  ∃ common f x y, a.Touches outa common f x ∧ b.Touches outb common f y ∧ x.Conflicts y

variable {op : OperatorConfig} {out : OperatorOutput}

theorem Covers.orders (h : op.Covers out) {common : Bool} {f : String} {a : Access}
    (ht : op.Touches out common f a) : op.Orders common f a := by
  rcases ht with ht | ht
  · exact Or.inl ht
  · exact h.effects common f a ht

/-- Whoever touches an item field touches the row set. -/
theorem Accesses.rowSet {f : String} {a : Access} (h : op.Accesses false f a) : ∃ b, op.Accesses false kRowSet b := by
  have hfields : op.metadata.itemInput ≠ [] ∨ op.metadata.itemOutput ≠ [] → ∃ b, op.Accesses false kRowSet b := by
    intro hne
    by_cases ha : op.additiveWritesRowSet = true
    · exact ⟨_, .rowSetAdd ha⟩
    · exact ⟨_, .rowSetRead (Bool.eq_false_of_not_eq_true ha) hne⟩
  cases h with
  | itemRead h => exact hfields (Or.inl (List.ne_nil_of_mem h))
  | itemWrite h _ => exact hfields (Or.inr (List.ne_nil_of_mem h))
  | itemAdd h _ => exact hfields (Or.inr (List.ne_nil_of_mem h))
  | rowSetAdd ha => exact ⟨_, .rowSetAdd ha⟩
  | rowSetConsume hc => exact ⟨_, .rowSetConsume hc⟩
  | rowSetRead ha hne => exact ⟨_, .rowSetRead ha hne⟩
  | rowSetMutate hm => exact ⟨_, .rowSetMutate hm⟩

theorem Orders.conflicts {a b : OperatorConfig} {common : Bool} {f : String} {x y : Access} (ha : a.Orders common f x)
    (hb : b.Orders common f y) (hc : x.Conflicts y) : a.Conflicts b := by
  have left : ∀ z, Access.Conflicts .mutating z := fun z => ⟨fun h => by simp at h, fun h => by simp at h⟩
  have right : ∀ z, Access.Conflicts z .mutating := fun z => ⟨fun h => by simp at h, fun h => by simp at h⟩
  rcases ha with ha | ⟨rfl, rfl, -, ha⟩
  · rcases hb with hb | ⟨rfl, rfl, -, hb⟩
    · exact ⟨common, f, x, y, ha, hb, hc⟩
    · obtain ⟨z, hz⟩ := ha.rowSet
      exact ⟨false, kRowSet, z, .mutating, hz, hb, right z⟩
  · obtain ⟨z, hz⟩ : ∃ z, b.Accesses false kRowSet z := by
      rcases hb with hb | ⟨-, -, -, hb⟩
      · exact hb.rowSet
      · exact ⟨_, hb⟩
    exact ⟨false, kRowSet, .mutating, z, ha, hz, left z⟩

theorem Covers.conflicts {a b : OperatorConfig} {outa outb : OperatorOutput} (ha : a.Covers outa) (hb : b.Covers outb)
    (hclash : a.Clashes b outa outb) : a.Conflicts b := by
  obtain ⟨common, f, x, y, hx, hy, hc⟩ := hclash
  exact (ha.orders hx).conflicts (hb.orders hy) hc

end OperatorConfig

/-! ## The two engines -/

/-- The row-set part of `NewEngine`: the markers of the instance join the flags of the configuration. -/
def goRowSetMarkers (name : String) (entry : RegistryEntry) (op : OperatorConfig) : Except PineError OperatorConfig :=
  let op := { op with
    operatorType := entry.type.toString
    «recall» := op.recall || entry.type = .recall
    consumesRowSet := op.consumesRowSet || entry.consumesRowSet
    mutatesRowSet := op.mutatesRowSet || entry.mutatesRowSet
    additiveWritesRowSet := op.additiveWritesRowSet || entry.additiveWritesRowSet }
  if op.additiveWritesRowSet && op.mutatesRowSet then
    .error (.error ("operator \"" ++ name ++ "\": AdditiveWritesRowSet and MutatesRowSet are mutually exclusive"))
  else if entry.type = .recall && !op.additiveWritesRowSet then
    .error (.error ("operator \"" ++ name ++ "\": Recall type must implement AdditiveWritesRowSet"))
  else .ok op

theorem goRowSetMarkers_spec {name : String} {entry : RegistryEntry} {op op' : OperatorConfig}
    (h : goRowSetMarkers name entry op = .ok op') :
    (op'.additiveWritesRowSet && op'.mutatesRowSet) = false ∧
      (entry.type = .recall → op'.additiveWritesRowSet = true) := by
  unfold goRowSetMarkers at h
  dsimp only at h
  split at h
  · exact absurd h Except.error_ne_ok
  · next hex =>
    split at h
    · exact absurd h Except.error_ne_ok
    · next hrecall =>
      obtain rfl := Except.ok.inj h
      refine ⟨Bool.eq_false_of_not_eq_true hex, fun ht => ?_⟩
      by_contra hadd
      exact hrecall (by rw [Bool.and_eq_true, decide_eq_true_iff, Bool.not_eq_true']; exact
        ⟨ht, Bool.eq_false_of_not_eq_true hadd⟩)

/-- The operator and its output as the gates of `node_body` and `build_dag` see them. -/
structure Accepted (name : String) (op : OperatorConfig) (out : OperatorOutput) : Prop where
  type : validateOutputAgainstType name op.operatorType out = .ok ()
  declared : validateDeclaredOutputs name op out = .ok ()

/-- For every operator that an engine accepts, the gates enforce what the DAG assumes exactly where the markers
fit the type; and such operators never clash unordered. -/
theorem gates_enforce_dag_iff_marked (registry : Registry) (json : Variant) (config : Config)
    (hload : loadConfigFromJson registry json = .ok config) :
    (∀ name op, config.operators.find? name = some op → ∃ t : OperatorType, op.operatorType = t.toString ∧
      ((∀ out, Accepted name op out → op.Covers out) ↔ op.Marked t)) ∧
    (∀ name entry op op', goRowSetMarkers name entry op = .ok op' →
      ((∀ out : OperatorOutput, out.Passes entry.type op' → op'.Covers out) ↔ op'.Marked entry.type)) ∧
    ∀ expanded g, buildDag config expanded = .ok g → ∀ i j oi oj ti tj outi outj, i < j →
      operatorAt config expanded i = some oi → operatorAt config expanded j = some oj →
      oi.operatorType = ti.toString → oj.operatorType = tj.toString → oi.Marked ti → oj.Marked tj →
      Accepted oi.name oi outi → Accepted oj.name oj outj → oi.Clashes oj outi outj →
      Relation.TransGen g.Edge i j := by
  obtain ⟨⟨parsed, htraits⟩, hvalid⟩ := traits_of_load hload
  refine ⟨fun name op hop => ?_, fun name entry op op' hgo => ?_, ?_⟩
  · obtain ⟨raw, -, hraw⟩ := (applyRegistryTraits_spec htraits).2.2 _ _ hop
    obtain ⟨entry, -, htype⟩ := applyRegistryTrait_spec hraw
    refine ⟨entry.type, htype, ?_⟩
    rw [← OperatorConfig.gatesSuffice_iff (exclusive_of_validateConfig hvalid hop)]
    refine forall_congr' fun out => imp_congr_left ?_
    rw [← @gates_ok_iff name _ _ out htype]
    exact ⟨fun h => ⟨h.type, h.declared⟩, fun h => ⟨h.1, h.2⟩⟩
  · exact OperatorConfig.gatesSuffice_iff (goRowSetMarkers_spec hgo).1
  · intro expanded g hg i j oi oj ti tj outi outj hij hoi hoj hti htj hmi hmj hai haj hclash
    have hcovers : ∀ {k o t out}, operatorAt config expanded k = some o → o.operatorType = t.toString → o.Marked t →
        Accepted o.name o out → o.Covers out := by
      intro k o t out ho ht hm ha
      obtain ⟨name, -, hfind⟩ := Option.bind_eq_some_iff.mp ho
      exact hm.covers (exclusive_of_validateConfig hvalid hfind) ((gates_ok_iff ht).mp ⟨ha.type, ha.declared⟩)
    exact buildDag_hazard_complete config expanded g hg i j hij oi oj hoi hoj
      ((hcovers hoi hti hmi hai).conflicts (hcovers hoj htj hmj haj) hclash)

/-! ## Two filters -/

/-- Two operators of one type, without metadata. -/
def twoFiltersJson : Variant := .object [
    ("pipeline_config", .object [("operators", .object [
      ("a", .object [("$metadata", .object []), ("type_name", .string "drop")]),
      ("b", .object [("$metadata", .object []), ("type_name", .string "drop")])])]),
    ("pipeline_group", .object [("main", .object [("pipeline", .array [.string "a", .string "b"])])])]

def filterRegistry (mutatesRowSet : Bool) : Registry := fun _ => some { type := .filter, mutatesRowSet }

def twoFilters (mutatesRowSet : Bool) : Config :=
  (loadConfigFromJson (filterRegistry mutatesRowSet) twoFiltersJson).toOption.getD {}

def twoFiltersGraph (mutatesRowSet : Bool) : Graph :=
  (buildDag (twoFilters mutatesRowSet) { sequence := ["a", "b"] }).toOption.getD {}

def dropFirst : OperatorOutput := { removedItems := SortedMap.ofList [(0, ())] }

/-- With the marker the second filter waits for the first. -/
theorem gates_enforce_dag_iff_marked_filters : Relation.TransGen (twoFiltersGraph true).Edge 0 1 := by
  have hload : loadConfigFromJson (filterRegistry true) twoFiltersJson = .ok (twoFilters true) := by decide +kernel
  obtain ⟨-, -, hruns⟩ := gates_enforce_dag_iff_marked (filterRegistry true) twoFiltersJson (twoFilters true) hload
  let a := (operatorAt (twoFilters true) { sequence := ["a", "b"] } 0).getD {}
  let b := (operatorAt (twoFilters true) { sequence := ["a", "b"] } 1).getD {}
  have marked : ∀ op : OperatorConfig, op.mutatesRowSet = true → op.Marked .filter :=
    fun op h => ⟨nofun, fun _ => .rowSetMutate h, nofun⟩
  refine hruns { sequence := ["a", "b"] } (twoFiltersGraph true) (Except.eq_ok_getD (by decide +kernel) _) 0 1 a b .filter
    .filter dropFirst dropFirst (by decide) (by decide +kernel) (by decide +kernel) (by decide +kernel) (by decide +kernel)
    (marked a (by decide +kernel)) (marked b (by decide +kernel)) ⟨by decide +kernel, by decide +kernel⟩
    ⟨by decide +kernel, by decide +kernel⟩ ?_
  exact ⟨false, kRowSet, .mutating, .mutating, Or.inr (.remove rfl), Or.inr (.remove rfl), by decide, by decide⟩

/-- Without it both engines accept the filters all the same, both outputs pass, and nothing orders the two. -/
theorem unmarked_filters_unordered :
    loadConfigFromJson (filterRegistry false) twoFiltersJson = .ok (twoFilters false) ∧
    (∃ op, goRowSetMarkers "a" { type := .filter } {} = .ok op) ∧
    buildDag (twoFilters false) { sequence := ["a", "b"] } = .ok (twoFiltersGraph false) ∧
    ∃ a b, operatorAt (twoFilters false) { sequence := ["a", "b"] } 0 = some a ∧
      operatorAt (twoFilters false) { sequence := ["a", "b"] } 1 = some b ∧ Accepted "a" a dropFirst ∧
      Accepted "b" b dropFirst ∧ ¬ a.Covers dropFirst ∧ a.Clashes b dropFirst dropFirst ∧
      (twoFiltersGraph false).succs 0 = [] ∧ (twoFiltersGraph false).succs 1 = [] := by
  let a := (operatorAt (twoFilters false) { sequence := ["a", "b"] } 0).getD {}
  let b := (operatorAt (twoFilters false) { sequence := ["a", "b"] } 1).getD {}
  refine ⟨by decide +kernel, ⟨_, rfl⟩, Except.eq_ok_getD (by decide +kernel) _, a, b, by decide +kernel,
    by decide +kernel, ⟨by decide +kernel, by decide +kernel⟩, ⟨by decide +kernel, by decide +kernel⟩, fun h => ?_, ?_,
    by decide +kernel, by decide +kernel⟩
  · have hwrites : a.WritesRowSet := h.mutates (Or.inl rfl)
    have hunmarked : a.mutatesRowSet = false := by decide +kernel
    have hnone : a.metadata.itemOutput = [] := by decide +kernel
    unfold OperatorConfig.WritesRowSet at hwrites
    cases hwrites with
    | itemWrite hout _ => rw [hnone] at hout; exact absurd hout List.not_mem_nil
    | rowSetMutate hm => rw [hunmarked] at hm; exact absurd hm Bool.false_ne_true
  · exact ⟨false, kRowSet, .mutating, .mutating, Or.inr (.remove rfl), Or.inr (.remove rfl), by decide, by decide⟩

end Pineapple
