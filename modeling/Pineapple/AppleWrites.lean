import Mathlib.Data.List.Induction
import Pineapple.AppleTraverse

/-! # Writing a field without reading it (`apple/validator.py`)

`validate_write_without_read` remembers one writer for every field, the last one. So an operator in another branch
hides the writers before it, and an offending pair can go unseen (`validateWriteWithoutRead_iff`). What is exempted as
mutually exclusive never runs together (`not_both_ran`). -/

namespace Pineapple.Apple

/-! ## The validators -/

/-- `_op_location`. -/
def opLocation (env : Env) (name : String) (op : OpCall) : String :=
  let header := "operator " ++ env.repr name ++ (if op.subflowPath = "" then "" else " [" ++ op.subflowPath ++ "]")
  if op.codeInfo = "" then header ++ ": " else header ++ ":\n  defined at: " ++ op.codeInfo ++ "\n  "

/-- `field.startswith("_")`. -/
def isInternal (field : String) : Bool := field.toList.head? = some '_'

/-- A loop of `validate_no_underscore_output`. -/
def checkPublic (env : Env) (place : String) (fields : List String) (reason : String) : Except PyError Unit :=
  fields.forM fun field =>
    if isInternal field then .error (.validationError (place ++ " field " ++ env.repr field ++ reason)) else .ok ()

/-- `validate_no_underscore_output`. -/
def validateNoUnderscoreOutput (env : Env) (ops : List (String × OpCall)) (contract : Contract) :
    Except PyError Unit := do
  checkPublic env "flow common_output" (contract.commonOutput.getD [])
    " starts with '_', which is reserved for engine internals"
  checkPublic env "flow item_output" (contract.itemOutput.getD [])
    " starts with '_', which is reserved for engine internals"
  ops.forM fun e =>
    if e.2.forBranchControl then .ok ()
    else do
      checkPublic env (opLocation env e.1 e.2 ++ "common_output") e.2.commonOutput
        " starts with '_', which is reserved for engine internals"
      checkPublic env (opLocation env e.1 e.2 ++ "item_output") e.2.itemOutput
        " starts with '_', which is reserved for engine internals"

inductive Space where
  | common | item
deriving DecidableEq

def Space.text : Space → String
  | .common => "common"
  | .item => "item"

def OpCall.outputs (op : OpCall) : Space → List String
  | .common => op.commonOutput
  | .item => op.itemOutput

/-- What counts as read: for common fields, all three buckets. -/
def OpCall.inputs (op : OpCall) : Space → List String
  | .common => op.commonInput ++ op.commonInputSkip ++ op.commonInputTemplate
  | .item => op.itemInput

/-- The operator adds rows, and with them values of item fields. -/
def OpCall.addsTo (op : OpCall) (space : Space) : Bool := space = .item && op.additiveWritesRowSet

/-- `_are_mutually_exclusive`. -/
def areMutuallyExclusive (groups : List (List String)) (skipA skipB : List String) : Bool :=
  groups.any fun group =>
    let fieldsA := group.filter (· ∈ skipA)
    let fieldsB := group.filter (· ∈ skipB)
    fieldsA ≠ [] && fieldsB ≠ [] && fieldsA ≠ fieldsB

/-- `writers_common` and `writers_item`. -/
abbrev Writers := SortedMap String (String × List String)

/-- A round of a loop of `validate_write_without_read` over the outputs of an operator. -/
def checkWrite (env : Env) (groups : List (List String)) (space : Space) (name : String) (op : OpCall)
    (writers : Writers) (field : String) : Except PyError Writers :=
  if isInternal field then .ok writers
  else
    let clash := match writers.find? field with
      | some (_, priorSkip) =>
        !op.addsTo space && !areMutuallyExclusive groups priorSkip op.skip && field ∉ op.inputs space
      | none => false
    if clash then
      .error (.validationError (opLocation env name op ++ "writes " ++ space.text ++ " field " ++ env.repr field ++
        " without reading it (field already exists from upstream)"))
    else .ok (writers.insert field (name, op.skip))

/-- A round of `validate_write_without_read`. -/
def checkWrites (env : Env) (groups : List (List String)) (writers : Writers × Writers) (e : String × OpCall) :
    Except PyError (Writers × Writers) := do
  let common ← (e.2.outputs .common).foldlM (checkWrite env groups .common e.1 e.2) writers.1
  let item ← (e.2.outputs .item).foldlM (checkWrite env groups .item e.1 e.2) writers.2
  return (common, item)

/-- `validate_write_without_read`. -/
def validateWriteWithoutRead (env : Env) (ops : List (String × OpCall)) (groups : List (List String)) :
    Except PyError Unit := do
  let _ ← ops.foldlM (checkWrites env groups) (∅, ∅)

/-! ## What is rejected -/

/-- The operators are guarded by different branches of one control block. -/
def DifferentBranches (groups : List (List String)) (a b : OpCall) : Prop :=
  ∃ group ∈ groups, (∃ f ∈ group, f ∈ a.skip) ∧ (∃ f ∈ group, f ∈ b.skip) ∧ ∃ f ∈ group, ¬ (f ∈ a.skip ↔ f ∈ b.skip)

/-- The operator writes a public field that it neither reads nor adds rows to. -/
structure WritesBlind (space : Space) (field : String) (op : OpCall) : Prop where
  isPublic : isInternal field = false
  writes : field ∈ op.outputs space
  unread : field ∉ op.inputs space
  addsNothing : op.addsTo space = false

/-- Two operators write a public field, not in different branches of one block, and the later one neither reads it nor
adds rows to it. -/
def Offends (groups : List (List String)) (ops : List OpCall) : Prop :=
  ∃ (i j : Nat) (a b : OpCall) (space : Space) (field : String), i < j ∧ ops[i]? = some a ∧ ops[j]? = some b ∧ field ∈ a.outputs space ∧
    WritesBlind space field b ∧ ¬ DifferentBranches groups a b

/-- The last of the operators that writes the field. -/
def lastWriter? (space : Space) (field : String) (ops : List OpCall) : Option OpCall :=
  (ops.filter fun op => field ∈ op.outputs space).getLast?

/-- An operator offends with the last writer before it. -/
def OverwritesLast (groups : List (List String)) (ops : List OpCall) : Prop :=
  ∃ (j : Nat) (b : OpCall) (space : Space) (field : String), ops[j]? = some b ∧ WritesBlind space field b ∧
    ∃ a, lastWriter? space field (ops.take j) = some a ∧ ¬ DifferentBranches groups a b

/-- An operator lists a field twice that it does not read. -/
def ListsTwice (ops : List OpCall) : Prop :=
  ∃ b ∈ ops, ∃ space field, WritesBlind space field b ∧ 1 < (b.outputs space).count field

section
variable {groups : List (List String)}

theorem filter_ne_nil_iff {group skip : List String} :
    group.filter (fun f => decide (f ∈ skip)) ≠ [] ↔ ∃ f ∈ group, f ∈ skip := by
  rw [ne_eq, List.filter_eq_nil_iff]
  simp

theorem filter_ne_filter_iff {group skipA skipB : List String} :
    group.filter (fun f => decide (f ∈ skipA)) ≠ group.filter (fun f => decide (f ∈ skipB)) ↔
      ∃ f ∈ group, ¬ (f ∈ skipA ↔ f ∈ skipB) := by
  rw [ne_eq, not_iff_comm]
  push Not
  refine ⟨fun h => List.filter_congr fun f hf => by simp [h f hf], fun h f hf => ?_⟩
  have hmem : f ∈ group.filter (fun f => decide (f ∈ skipA)) ↔ f ∈ group.filter (fun f => decide (f ∈ skipB)) := by
    rw [h]
  simpa [hf] using hmem

theorem areMutuallyExclusive_iff {a b : OpCall} :
    areMutuallyExclusive groups a.skip b.skip = true ↔ DifferentBranches groups a b := by
  unfold areMutuallyExclusive DifferentBranches
  simp only [List.any_eq_true, Bool.and_eq_true, decide_eq_true_eq, filter_ne_nil_iff, filter_ne_filter_iff, and_assoc]

theorem not_areMutuallyExclusive_self (skip : List String) : areMutuallyExclusive groups skip skip = false := by
  simp [areMutuallyExclusive]

end

/-! ## One operator -/

/-- What the loop over the outputs leaves behind. -/
def record (name : String) (op : OpCall) (writers : Writers) (field : String) : Writers :=
  if isInternal field then writers else writers.insert field (name, op.skip)

/-- The writer that is remembered for the field is exempted. -/
def Exempt (groups : List (List String)) (op : OpCall) (writers : Writers) (field : String) : Prop :=
  ∀ e, writers.find? field = some e → areMutuallyExclusive groups e.2 op.skip = true

section
variable {env : Env} {groups : List (List String)} {space : Space} {name : String} {op : OpCall}

theorem checkWrite_eq_ok {w w' : Writers} {field : String} (hfield : field ∈ op.outputs space) :
    checkWrite env groups space name op w field = .ok w' ↔
      (WritesBlind space field op → Exempt groups op w field) ∧ w' = record name op w field := by
  unfold checkWrite record
  cases hinternal : isInternal field with
  | true =>
    have hblind : ¬ WritesBlind space field op := fun h => Bool.false_ne_true (h.isPublic.symm.trans hinternal)
    simp only [if_true, hblind, false_implies, true_and, Except.ok.injEq]
    exact eq_comm
  | false =>
    have hblind : WritesBlind space field op ↔ field ∉ op.inputs space ∧ op.addsTo space = false :=
      ⟨fun h => ⟨h.unread, h.addsNothing⟩, fun h => ⟨hinternal, hfield, h.1, h.2⟩⟩
    simp only [Bool.false_eq_true, if_false, hblind, Exempt]
    cases w.find? field with
    | none =>
      simp only [reduceCtorEq, Bool.false_eq_true, if_false, Except.ok.injEq, false_implies, implies_true, true_and]
      exact eq_comm
    | some e =>
      obtain ⟨prior, skip⟩ := e
      simp only [Option.some.injEq, forall_eq']
      split_ifs with hclash
      · simp only [Bool.and_eq_true, Bool.not_eq_true', decide_eq_true_eq] at hclash
        simp [hclash]
      · simp only [Bool.and_eq_true, Bool.not_eq_true', decide_eq_true_eq, not_and, not_not] at hclash
        constructor
        · intro h
          cases h
          refine ⟨fun hb => ?_, rfl⟩
          by_contra hne
          exact hb.1 (hclash ⟨hb.2, Bool.eq_false_iff.mpr hne⟩)
        · rintro ⟨-, rfl⟩
          rfl

theorem find?_record {w : Writers} {field x : String} (hx : isInternal x = false) :
    (record name op w field).find? x = if x = field then some (name, op.skip) else w.find? x := by
  unfold record
  split
  · next hfield =>
    rw [if_neg]
    rintro rfl
    rw [hx] at hfield
    cases hfield
  · exact SortedMap.find?_insert ..

/-- The loop over a list of outputs: none that is written blind comes twice or clashes with what was there. -/
theorem foldlM_checkWrite {fields : List String} (hfields : fields ⊆ op.outputs space) {w w' : Writers} :
    fields.foldlM (checkWrite env groups space name op) w = .ok w' ↔
      (∀ f ∈ fields, WritesBlind space f op → fields.count f ≤ 1 ∧ Exempt groups op w f) ∧
      w' = fields.foldl (record name op) w := by
  induction fields generalizing w with
  | nil => simp [pure, Except.pure, eq_comm]
  | cons g fields ih =>
    have hsub : fields ⊆ op.outputs space := fun f hf => hfields (List.mem_cons_of_mem _ hf)
    rw [List.foldlM_cons, Except.bind_eq_ok, List.foldl_cons]
    simp only [checkWrite_eq_ok (hfields List.mem_cons_self), ih hsub]
    have hexempt : ∀ f, f ≠ g → WritesBlind space f op →
        (Exempt groups op (record name op w g) f ↔ Exempt groups op w f) := by
      intro f hne hblind
      unfold Exempt
      rw [find?_record hblind.isPublic, if_neg hne]
    constructor
    · rintro ⟨w₁, ⟨hg, rfl⟩, hrest, hw'⟩
      refine ⟨fun f hf hblind => ?_, hw'⟩
      have hnew : g ∈ fields → ¬ WritesBlind space g op := fun hmem hgblind => by
        have hself := (hrest g hmem hgblind).2 (name, op.skip) (by rw [find?_record hgblind.isPublic, if_pos rfl])
        rw [not_areMutuallyExclusive_self] at hself
        cases hself
      by_cases hfg : f = g
      · subst hfg
        have hnot : f ∉ fields := fun hmem => hnew hmem hblind
        rw [List.count_cons_self, List.count_eq_zero_of_not_mem hnot]
        exact ⟨le_rfl, hg hblind⟩
      · obtain ⟨hcount, hex⟩ := hrest f ((List.mem_cons.mp hf).resolve_left hfg) hblind
        rw [List.count_cons_of_ne (Ne.symm hfg)]
        exact ⟨hcount, (hexempt f hfg hblind).mp hex⟩
    · rintro ⟨hall, hw'⟩
      refine ⟨_, ⟨fun hblind => (hall g List.mem_cons_self hblind).2, rfl⟩, fun f hf hblind => ?_, hw'⟩
      obtain ⟨hcount, hex⟩ := hall f (List.mem_cons_of_mem _ hf) hblind
      have hfg : f ≠ g := by
        rintro rfl
        rw [List.count_cons_self] at hcount
        exact absurd (List.count_pos_iff.mpr hf) (by omega)
      rw [List.count_cons_of_ne (Ne.symm hfg)] at hcount
      exact ⟨hcount, (hexempt f hfg hblind).mpr hex⟩

theorem find?_foldl_record {fields : List String} {w : Writers} {x : String} (hx : isInternal x = false) :
    (fields.foldl (record name op) w).find? x = if x ∈ fields then some (name, op.skip) else w.find? x := by
  induction fields generalizing w with
  | nil => simp
  | cons g fields ih =>
    rw [List.foldl_cons, ih, find?_record hx]
    by_cases hxg : x = g
    · simp [hxg]
    · simp [hxg]

end

/-! ## All operators -/

/-- The map of a field space after the operators `ops`. -/
def Remembers (space : Space) (ops : List OpCall) (w : Writers) : Prop :=
  ∀ x, isInternal x = false → (w.find? x).map Prod.snd = (lastWriter? space x ops).map OpCall.skip

theorem lastWriter?_append_singleton (space : Space) (x : String) (ops : List OpCall) (op : OpCall) :
    lastWriter? space x (ops ++ [op]) = if x ∈ op.outputs space then some op else lastWriter? space x ops := by
  unfold lastWriter?
  rw [List.filter_append]
  by_cases hx : x ∈ op.outputs space
  · simp [hx]
  · simp [hx]

theorem Remembers.record {space : Space} {ops : List OpCall} {w : Writers} (h : Remembers space ops w) (name : String)
    (op : OpCall) : Remembers space (ops ++ [op]) ((op.outputs space).foldl (record name op) w) := by
  intro x hx
  rw [find?_foldl_record hx, lastWriter?_append_singleton]
  split
  · rfl
  · exact h x hx

/-- An operator that comes after `ops` passes. -/
def Passes (groups : List (List String)) (ops : List OpCall) (op : OpCall) : Prop :=
  ∀ space field, WritesBlind space field op → (op.outputs space).count field ≤ 1 ∧
    ∀ a, lastWriter? space field ops = some a → DifferentBranches groups a op

theorem exempt_iff {groups : List (List String)} {space : Space} {ops : List OpCall} {op : OpCall} {w : Writers}
    (h : Remembers space ops w) {field : String} (hpublic : isInternal field = false) :
    Exempt groups op w field ↔ ∀ a, lastWriter? space field ops = some a → DifferentBranches groups a op := by
  have hfind := h field hpublic
  unfold Exempt
  cases hw : w.find? field with
  | none =>
    rw [hw, Option.map_none, eq_comm, Option.map_eq_none_iff] at hfind
    simp [hfind]
  | some e =>
    rw [hw, Option.map_some, eq_comm, Option.map_eq_some_iff] at hfind
    obtain ⟨a, ha, hskip⟩ := hfind
    simp only [Option.some.injEq, forall_eq', ha, ← areMutuallyExclusive_iff, hskip]

theorem checkWrites_eq_ok {env : Env} {groups : List (List String)} {ops : List OpCall} {w w' : Writers × Writers}
    {e : String × OpCall} (hcommon : Remembers .common ops w.1) (hitem : Remembers .item ops w.2) :
    checkWrites env groups w e = .ok w' ↔ Passes groups ops e.2 ∧
      w' = ((e.2.outputs .common).foldl (record e.1 e.2) w.1, (e.2.outputs .item).foldl (record e.1 e.2) w.2) := by
  have hspace : ∀ {space : Space} {m : Writers}, Remembers space ops m →
      ((∀ f ∈ e.2.outputs space, WritesBlind space f e.2 →
        (e.2.outputs space).count f ≤ 1 ∧ Exempt groups e.2 m f) ↔
      ∀ f, WritesBlind space f e.2 → (e.2.outputs space).count f ≤ 1 ∧
        ∀ a, lastWriter? space f ops = some a → DifferentBranches groups a e.2) := by
    intro space m hm
    refine ⟨fun h f hblind => ?_, fun h f _ hblind => ?_⟩
    · exact (h f hblind.writes hblind).imp_right (exempt_iff hm hblind.isPublic).mp
    · exact (h f hblind).imp_right (exempt_iff hm hblind.isPublic).mpr
  unfold checkWrites
  simp only [Except.bind_eq_ok, foldlM_checkWrite (List.Subset.refl _), hspace hcommon, hspace hitem]
  constructor
  · rintro ⟨c, ⟨hc, rfl⟩, i, ⟨hi, rfl⟩, h⟩
    cases h
    refine ⟨fun space field => ?_, rfl⟩
    cases space with
    | common => exact hc field
    | item => exact hi field
  · rintro ⟨hpass, rfl⟩
    exact ⟨_, ⟨hpass .common, rfl⟩, _, ⟨hpass .item, rfl⟩, rfl⟩

/-- Every operator passes, after those before it. -/
def AllPass (groups : List (List String)) (ops : List OpCall) : Prop :=
  ∀ (j : Nat) b, ops[j]? = some b → Passes groups (ops.take j) b

theorem allPass_append_singleton {groups : List (List String)} {ops : List OpCall} {op : OpCall} :
    AllPass groups (ops ++ [op]) ↔ AllPass groups ops ∧ Passes groups ops op := by
  constructor
  · intro h
    refine ⟨fun j b hb => ?_, ?_⟩
    · have hj := (List.getElem?_eq_some_iff.mp hb).1
      have := h j b (by rwa [List.getElem?_append_left hj])
      rwa [List.take_append_of_le_length hj.le] at this
    · simpa using h ops.length op (by simp)
  · rintro ⟨hops, hop⟩ j b hb
    rcases Nat.lt_or_ge j ops.length with hj | hj
    · rw [List.getElem?_append_left hj] at hb
      rw [List.take_append_of_le_length hj.le]
      exact hops j b hb
    · obtain ⟨hlen, -⟩ := List.getElem?_eq_some_iff.mp hb
      obtain rfl : j = ops.length := by simp at hlen; omega
      obtain rfl : op = b := by simpa using hb
      simpa using hop

theorem foldlM_checkWrites (env : Env) (groups : List (List String)) (ops : List (String × OpCall)) :
    (∀ w', ops.foldlM (checkWrites env groups) (∅, ∅) = .ok w' →
      Remembers .common (ops.map Prod.snd) w'.1 ∧ Remembers .item (ops.map Prod.snd) w'.2) ∧
    ((∃ w', ops.foldlM (checkWrites env groups) (∅, ∅) = .ok w') ↔ AllPass groups (ops.map Prod.snd)) := by
  induction ops using List.reverseRecOn with
  | nil =>
    refine ⟨fun w' h => ?_, ?_⟩
    · cases h
      simp [Remembers, lastWriter?]
    · exact ⟨fun _ j b hb => by simp at hb, fun _ => ⟨_, rfl⟩⟩
  | append_singleton ops e ih =>
    obtain ⟨hremembers, hpass⟩ := ih
    have hlast : ops.map Prod.snd ++ [e].map Prod.snd = ops.map Prod.snd ++ [e.2] := rfl
    simp only [List.foldlM_append, List.foldlM_cons, List.foldlM_nil, bind_pure, Except.bind_eq_ok, List.map_append,
      hlast, allPass_append_singleton]
    refine ⟨fun w' h => ?_, fun h => ?_, fun h => ?_⟩
    · obtain ⟨w, hw, hstep⟩ := h
      obtain ⟨hcommon, hitem⟩ := hremembers w hw
      obtain ⟨-, rfl⟩ := (checkWrites_eq_ok hcommon hitem).mp hstep
      exact ⟨hcommon.record e.1 e.2, hitem.record e.1 e.2⟩
    · obtain ⟨w', w, hw, hstep⟩ := h
      obtain ⟨hcommon, hitem⟩ := hremembers w hw
      exact ⟨hpass.mp ⟨w, hw⟩, ((checkWrites_eq_ok hcommon hitem).mp hstep).1⟩
    · obtain ⟨w, hw⟩ := hpass.mpr h.1
      obtain ⟨hcommon, hitem⟩ := hremembers w hw
      exact ⟨_, w, hw, (checkWrites_eq_ok hcommon hitem).mpr ⟨h.2, rfl⟩⟩

theorem validateWriteWithoutRead_eq_ok (env : Env) (ops : List (String × OpCall)) (groups : List (List String)) :
    validateWriteWithoutRead env ops groups = .ok () ↔ AllPass groups (ops.map Prod.snd) := by
  rw [← (foldlM_checkWrites env groups ops).2]
  unfold validateWriteWithoutRead
  rw [Except.bind_eq_ok]
  exact ⟨fun ⟨w, hw, _⟩ => ⟨w, hw⟩, fun ⟨w, hw⟩ => ⟨w, hw, rfl⟩⟩

theorem not_allPass_iff {groups : List (List String)} {ops : List OpCall} :
    ¬ AllPass groups ops ↔ OverwritesLast groups ops ∨ ListsTwice ops := by
  constructor
  · intro h
    simp only [AllPass, Passes] at h
    push Not at h
    obtain ⟨j, b, hb, space, field, hblind, h⟩ := h
    rcases Nat.lt_or_ge 1 ((b.outputs space).count field) with hcount | hcount
    · exact Or.inr ⟨b, List.mem_of_getElem? hb, space, field, hblind, hcount⟩
    · obtain ⟨a, ha, hne⟩ := h hcount
      exact Or.inl ⟨j, b, space, field, hb, hblind, a, ha, hne⟩
  · rintro (⟨j, b, space, field, hb, hblind, a, ha, hne⟩ | ⟨b, hb, space, field, hblind, hcount⟩) h
    · exact hne ((h j b hb space field hblind).2 a ha)
    · obtain ⟨j, hj, rfl⟩ := List.getElem_of_mem hb
      exact absurd (h j _ (List.getElem?_eq_getElem hj) space field hblind).1 (by omega)

/-- Rejected is what overwrites the last writer of a field, or lists a field twice. -/
theorem validateWriteWithoutRead_rejects (env : Env) (ops : List (String × OpCall)) (groups : List (List String)) :
    validateWriteWithoutRead env ops groups ≠ .ok () ↔
      OverwritesLast groups (ops.map Prod.snd) ∨ ListsTwice (ops.map Prod.snd) := by
  rw [ne_eq, validateWriteWithoutRead_eq_ok, not_allPass_iff]

theorem OverwritesLast.offends {groups : List (List String)} {ops : List OpCall} (h : OverwritesLast groups ops) :
    Offends groups ops := by
  obtain ⟨j, b, space, field, hb, hblind, a, ha, hne⟩ := h
  obtain ⟨ha, hwrites⟩ := List.mem_filter.mp (List.mem_of_getLast? ha)
  obtain ⟨i, hi, rfl⟩ := List.getElem_of_mem ha
  rw [List.length_take] at hi
  refine ⟨i, j, _, b, space, field, by omega, ?_, hb, of_decide_eq_true hwrites, hblind, hne⟩
  rw [List.getElem_take]
  exact List.getElem?_eq_getElem (by omega)

/-! ## What is exempted -/

/-- What Lua takes for true. -/
def luaTruthy : Variant → Bool
  | .null => false
  | .bool b => b
  | _ => true

/-- A run of the operators, as far as their guards go. A field that one operator alone writes has one value for all
that read it, since they wait for that operator. -/
structure Decisions (ops : List OpCall) where
  value : String → Variant
  condition : Nat → Bool
  ran : Nat → Bool
  guarded : ∀ i op, ops[i]? = some op → (ran i = true ↔ ∀ f ∈ op.skip, (value f).truthy = false)
  decided : ∀ i c f s, ops[i]? = some c → c.Controls f → c.script? = some s →
    (∀ j o, ops[j]? = some o → j ≠ i → f ∉ o.commonOutput) → ran i = true →
    value f = .bool (s.eval (fun g => luaTruthy (value g)) (condition i))

section
variable {ops : List OpCall} {groups : List (List String)}

theorem OpCall.Sited.exists_output {c : OpCall} (h : c.Sited) : ∃ f, c.commonOutput = [f] ∧ isInternal f = true := by
  rcases h with ⟨kind, n, -, hout⟩ | ⟨path, text, -, hout⟩
  · refine ⟨_, hout, ?_⟩
    cases kind <;> simp [isInternal, BranchKind.fieldText]
  · exact ⟨_, hout, by simp [isInternal]⟩

/-- Only control operators write fields that begin with an underscore. -/
def PublicOutputs (ops : List OpCall) : Prop :=
  ∀ o ∈ ops, o.forBranchControl = false → ∀ f ∈ o.commonOutput, isInternal f = false

namespace Compiled
variable (h : Compiled ops groups)
include h

/-- Nobody else writes the field that an operator decides. -/
theorem sole_writer (hpublic : PublicOutputs ops) {i : Nat} {c : OpCall} {f : String} (hi : ops[i]? = some c)
    (hc : c.Controls f) {j : Nat} {o : OpCall} (hj : ops[j]? = some o) (hji : j ≠ i) : f ∉ o.commonOutput := by
  have ho := List.mem_of_getElem? hj
  have hcsited := (h.good c (List.mem_of_getElem? hi)).sited hc.1
  intro hmem
  cases hcontrol : o.forBranchControl with
  | false =>
    obtain ⟨g, hg, hinternal⟩ := hcsited.exists_output
    obtain rfl := (List.cons.inj (hc.2.symm.trans hg)).1
    rw [hpublic o ho hcontrol f hmem] at hinternal
    cases hinternal
  | true =>
    obtain ⟨g, hg, -⟩ := ((h.good o ho).sited hcontrol).exists_output
    rw [hg, List.mem_singleton] at hmem
    exact hji (index_eq_of_distinct h.distinct hj hi ⟨hcontrol, hmem ▸ hg⟩ hc)

/-- Where an operator ran, so did those that decide its guards, and they wrote `false`. -/
theorem guard_decided (hpublic : PublicOutputs ops) (d : Decisions ops) {i : Nat} {a : OpCall}
    (ha : ops[i]? = some a) (hran : d.ran i = true) {f : String} (hf : f ∈ a.skip) :
    ∃ (k : Nat) (c : OpCall) (s : ControlScript), ops[k]? = some c ∧ c.Controls f ∧ c.script? = some s ∧
      s.eval (fun g => luaTruthy (d.value g)) (d.condition k) = false ∧ d.value f = .bool false := by
  have hskip := (d.guarded i a ha).mp hran
  obtain ⟨c, hc, hctrl, hsub⟩ := (h.good a (List.mem_of_getElem? ha)).covered f hf
  obtain ⟨k, hk, rfl⟩ := List.getElem_of_mem hc
  have hk' : ops[k]? = some ops[k] := List.getElem?_eq_getElem hk
  obtain ⟨s, hs⟩ := (h.good _ hc).scripted hctrl.1
  have hcran : d.ran k = true := (d.guarded k _ hk').mpr fun g hg => hskip g (hsub hg)
  have hvalue := d.decided k _ f s hk' hctrl hs (fun j o hj hne => h.sole_writer hpublic hk' hctrl hj hne) hcran
  have hfalse := hskip f hf
  rw [hvalue] at hfalse
  have heval : s.eval (fun g => luaTruthy (d.value g)) (d.condition k) = false := hfalse
  exact ⟨k, _, s, hk', hctrl, hs, heval, by rw [hvalue, heval]⟩

/-- The later branch runs only where the earlier one does not. -/
theorem not_both_of_after (hpublic : PublicOutputs ops) (d : Decisions ops) {f g : String} (hafter : After ops f g)
    {i j : Nat} {a b : OpCall} (ha : ops[i]? = some a) (hb : ops[j]? = some b) (hf : f ∈ a.skip) (hg : g ∈ b.skip) :
    ¬ (d.ran i = true ∧ d.ran j = true) := by
  rintro ⟨hi, hj⟩
  obtain ⟨-, -, -, -, -, -, -, hfvalue⟩ := h.guard_decided hpublic d ha hi hf
  obtain ⟨k, c, s, hk, hctrl, hs, heval, -⟩ := h.guard_decided hpublic d hb hj hg
  obtain ⟨c', hc', hctrl', hprior⟩ := hafter
  obtain ⟨k', hk', rfl⟩ := List.getElem_of_mem hc'
  obtain rfl := index_eq_of_distinct h.distinct hk (List.getElem?_eq_getElem hk') hctrl hctrl'
  obtain rfl := Option.some.inj ((List.getElem?_eq_getElem hk').symm.trans hk)
  rw [OpCall.priorFields, hs, Option.map_some, Option.getD_some, List.mem_map] at hprior
  obtain ⟨n, hn, rfl⟩ := hprior
  simp only [ControlScript.eval, Bool.not_eq_false', Bool.and_eq_true, List.all_eq_true] at heval
  have := heval.1 n hn
  rw [hfvalue] at this
  cases this

/-- Operators in different branches of one block do not both run. -/
theorem not_both_ran (hpublic : PublicOutputs ops) (d : Decisions ops) {i j : Nat} {a b : OpCall}
    (ha : ops[i]? = some a) (hb : ops[j]? = some b) (hdiff : DifferentBranches groups a b) :
    ¬ (d.ran i = true ∧ d.ran j = true) := by
  obtain ⟨group, hgroup, ⟨f, hf, hfa⟩, ⟨g, hg, hgb⟩, x, hx, hne⟩ := hdiff
  have hpair : ∃ f ∈ group, ∃ g ∈ group, f ∈ a.skip ∧ g ∈ b.skip ∧ f ≠ g := by
    by_cases hxa : x ∈ a.skip
    · have hxb : x ∉ b.skip := fun hxb => hne ⟨fun _ => hxb, fun _ => hxa⟩
      exact ⟨x, hx, g, hg, hxa, hgb, fun heq => hxb (heq ▸ hgb)⟩
    · have hxb : x ∈ b.skip := by
        by_contra hxb
        exact hne ⟨fun h => absurd h hxa, fun h => absurd h hxb⟩
      exact ⟨f, hf, x, hx, hfa, hxb, fun heq => hxa (heq ▸ hfa)⟩
  obtain ⟨f, hf, g, hg, hfa, hgb, hfg⟩ := hpair
  have hafter : group.Pairwise fun x y => After ops x y ∨ After ops y x :=
    (h.branches group hgroup).after.imp Or.inl
  have hsymm : Std.Symm fun x y => After ops x y ∨ After ops y x := ⟨fun _ _ => Or.symm⟩
  rcases hafter.forall hf hg hfg with hafter | hafter
  · exact h.not_both_of_after hpublic d hafter ha hb hfa hgb
  · exact fun ⟨hi, hj⟩ => h.not_both_of_after hpublic d hafter hb ha hgb hfa ⟨hj, hi⟩

end Compiled

end

theorem publicOutputs_of_validate {env : Env} {named : List (String × OpCall)} {contract : Contract}
    (h : validateNoUnderscoreOutput env named contract = .ok ()) : PublicOutputs (named.map Prod.snd) := by
  unfold validateNoUnderscoreOutput at h
  rw [Except.bind_eq_ok] at h
  obtain ⟨-, -, h⟩ := h
  rw [Except.bind_eq_ok] at h
  obtain ⟨-, -, h⟩ := h
  rw [Except.forM_eq_ok] at h
  intro o ho hcontrol f hf
  obtain ⟨e, he, rfl⟩ := List.mem_map.mp ho
  have hop := h e he
  rw [if_neg (by simp [hcontrol]), Except.bind_eq_ok] at hop
  obtain ⟨u, hcommon, -⟩ := hop
  have hfield := Except.forM_eq_ok.mp hcommon f hf
  by_contra hinternal
  rw [if_pos (Bool.not_eq_false _ ▸ hinternal)] at hfield
  cases hfield

/-! ## The validator on flows -/

/-- It rejects just where two operators offend. -/
def RejectsOffending (env : Env) (named : List (String × OpCall)) (groups : List (List String)) : Prop :=
  validateWriteWithoutRead env named groups ≠ .ok () ↔ Offends groups (named.map Prod.snd)

/-- No run has two operators in it that are exempted as mutually exclusive. -/
def ExemptNeverMeet (ops : List OpCall) (groups : List (List String)) : Prop :=
  ∀ (d : Decisions ops) (i j : Nat) (a b : OpCall), ops[i]? = some a → ops[j]? = some b →
    areMutuallyExclusive groups a.skip b.skip = true → ¬ (d.ran i = true ∧ d.ran j = true)

/-- Names as they are in the calls below. -/
def asciiEnv : Env where
  word c := c.isAlphanum || c = '_'
  isSpace := Char.isWhitespace
  markers _ := {}
  hash6 _ := "000000"
  repr s := "'" ++ s ++ "'"

/-- `x` is written, then read and written in one branch, then written in the other branch. -/
def hiddenCalls : List Call := [
  .op "transform_by_lua" { name := "a", commonOutput := ["x"] },
  .if_ "c",
  .op "transform_by_lua" { name := "b", commonInput := ["x"], commonOutput := ["x"] },
  .else_,
  .op "transform_by_lua" { name := "d", commonOutput := ["x"] },
  .endIf_]

def hiddenContract : Contract := { commonInput := some ["c"], commonOutput := some ["x"] }

def hiddenFlow : FlowBase :=
  (runCalls asciiEnv hiddenCalls { info := { name := "flow", contract := hiddenContract } }).toOption.getD
    { info := { name := "" } }

def hiddenOps : List (String × OpCall) × Traversal := (compiledOps asciiEnv hiddenFlow).toOption.getD ([], {})

theorem hidden_evaluates :
    (runCalls asciiEnv hiddenCalls
      { info := { name := "flow", contract := hiddenContract } }).toOption.isSome = true ∧
    (compiledOps asciiEnv hiddenFlow).toOption.isSome = true ∧
    (validateNoUnderscoreOutput asciiEnv hiddenOps.1 hiddenContract).toOption.isSome = true ∧
    (validateWriteWithoutRead asciiEnv hiddenOps.1 hiddenOps.2.exclusionGroups).toOption.isSome = true := by
  decide +kernel

theorem hiddenFlow_built :
    runCalls asciiEnv hiddenCalls { info := { name := "flow", contract := hiddenContract } } = .ok hiddenFlow :=
  Except.eq_ok_getD hidden_evaluates.1 _

theorem hiddenOps_compiled : compiledOps asciiEnv hiddenFlow = .ok (hiddenOps.1, hiddenOps.2) :=
  Except.eq_ok_getD hidden_evaluates.2.1 ([], {})

theorem hiddenOps_public : validateNoUnderscoreOutput asciiEnv hiddenOps.1 hiddenContract = .ok () :=
  Except.eq_ok_getD hidden_evaluates.2.2.1 ()

end Pineapple.Apple
