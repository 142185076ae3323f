import Pineapple.EngineReads
import Pineapple.FieldParts
import Pineapple.InputView
import Pineapple.OutputCovered
import Pineapple.RunDagInv

/-! # What a node makes of the frame it looks at

A node whose operator reads and writes what its configuration declares looks at some places of the frame and changes some
places. On frames that hold the same at the places it reads it is skipped alike and produces the same output. -/

namespace Pineapple

variable {σ π : Type}

/-! ## The places of an operator -/

namespace OperatorConfig

/-- The scan counts the operator among those that touch the rows. -/
def TouchesRows (c : OperatorConfig) : Prop := ∃ a, c.Accesses false kRowSet a

/-- A place the scan counts as read. -/
def ReadsPlace (c : OperatorConfig) : Place → Prop
  | .common f => f ∈ c.metadata.commonReadFields
  | .item f => f ∈ c.metadata.itemInput ∨ (f = kRowSet ∧ c.TouchesRows)

/-- A place the scan counts as written; who changes the rows writes every item field. -/
def WritesPlace (c : OperatorConfig) : Place → Prop
  | .common f => f ∈ c.metadata.commonOutput
  | .item f => f ∈ c.metadata.itemOutput ∨ ∃ a, a ≠ .read ∧ c.Accesses false kRowSet a

/-- The operators conflict, or both add rows. -/
def Meets (c d : OperatorConfig) : Prop :=
  c.Conflicts d ∨ (c.additiveWritesRowSet = true ∧ d.additiveWritesRowSet = true)

variable {c d : OperatorConfig}

theorem Meets.symm (h : c.Meets d) : d.Meets c := by
  rcases h with ⟨common, f, x, y, hx, hy, hxy⟩ | ⟨hc, hd⟩
  · exact Or.inl ⟨common, f, y, x, hy, hx, fun h => hxy.1 h.symm, fun h => hxy.2 h.symm⟩
  · exact Or.inr ⟨hd, hc⟩

/-- An additive access is one of an operator that adds rows. -/
theorem Accesses.adds {common : Bool} {f : String} (h : c.Accesses common f .additive) :
    c.additiveWritesRowSet = true := by
  cases h with
  | itemAdd _ ha => exact ha
  | rowSetAdd ha => exact ha

/-- Accesses of one field, of which one is no read. -/
theorem meets_of_accesses {common : Bool} {f : String} {x y : Access} (hx : c.Accesses common f x)
    (hy : d.Accesses common f y) (hw : x ≠ .read) : c.Meets d := by
  by_cases hboth : x = .additive ∧ y = .additive
  · obtain ⟨rfl, rfl⟩ := hboth
    exact Or.inr ⟨hx.adds, hy.adds⟩
  · exact Or.inl ⟨common, f, x, y, hx, hy, fun h => hw h.1, hboth⟩

theorem access_of_itemOutput {f : String} (h : f ∈ c.metadata.itemOutput) : ∃ a, a ≠ .read ∧ c.Accesses false f a := by
  by_cases ha : c.additiveWritesRowSet = true
  · exact ⟨.additive, nofun, .itemAdd h ha⟩
  · exact ⟨.mutating, nofun, .itemWrite h (Bool.eq_false_of_not_eq_true ha)⟩

/-- Who writes a place meets all who read it or write it. -/
theorem meets_of_place {x : Place} (hc : c.WritesPlace x) (hd : d.ReadsPlace x ∨ d.WritesPlace x) : c.Meets d := by
  cases x with
  | common f =>
    have hwrite : c.Accesses true f .mutating := .commonWrite hc
    rcases hd with hd | hd
    · exact meets_of_accesses hwrite (.commonRead (Metadata.mem_commonReadFields.mp hd)) nofun
    · exact meets_of_accesses hwrite (.commonWrite hd) nofun
  | item f =>
    -- what `d` does to `f`, and that it touches the rows
    have hother : (∃ y, d.Accesses false f y) ∨ ∃ y, y ≠ .read ∧ d.Accesses false kRowSet y := by
      rcases hd with (hd | ⟨rfl, y, hy⟩) | hd | hd
      · exact Or.inl ⟨_, .itemRead hd⟩
      · exact Or.inl ⟨y, hy⟩
      · obtain ⟨y, -, hy⟩ := access_of_itemOutput hd
        exact Or.inl ⟨y, hy⟩
      · exact Or.inr hd
    have hrows : ∃ y, d.Accesses false kRowSet y := by
      rcases hother with ⟨y, hy⟩ | ⟨y, -, hy⟩
      · exact hy.rowSet
      · exact ⟨y, hy⟩
    rcases hc with hc | ⟨x, hne, hx⟩
    · obtain ⟨x, hne, hx⟩ := access_of_itemOutput hc
      rcases hother with ⟨y, hy⟩ | ⟨y, hny, hy⟩
      · exact meets_of_accesses hx hy hne
      · obtain ⟨z, hz⟩ := hx.rowSet
        exact (meets_of_accesses hy hz hny).symm
    · obtain ⟨y, hy⟩ := hrows
      exact meets_of_accesses hx hy hne

/-- A covered output changes places the operator writes. -/
theorem Covers.writes {out : OperatorOutput} (h : c.Covers out) {x : Place} (hx : out.Reaches x) : c.WritesPlace x := by
  cases x with
  | common f => exact h.common f hx
  | item f =>
    rcases hx with hx | hx | hx | hx
    · rcases h.existing f hx with hout | ⟨-, hm, -⟩
      · exact Or.inl hout
      · exact Or.inr ⟨.mutating, nofun, .rowSetMutate hm⟩
    · exact Or.inr ⟨.additive, nofun, .rowSetAdd (h.adds hx)⟩
    · exact Or.inr ⟨.mutating, nofun, h.mutates (Or.inl hx)⟩
    · exact Or.inr ⟨.mutating, nofun, h.mutates (Or.inr hx)⟩

end OperatorConfig

/-! ## Nodes that keep to their declarations -/

/-- The inputs answer alike what the operator has declared. -/
structure OperatorInput.AgreesOn (c : OperatorConfig) (a b : OperatorInput) : Prop where
  common : ∀ f ∈ c.metadata.commonReadFields, a.common f = b.common f
  itemCount : c.TouchesRows → a.itemCount = b.itemCount
  item : ∀ f ∈ c.metadata.itemInput, ∀ i, a.item i f = b.item i f
  itemColumn : ∀ f ∈ c.metadata.itemInput, a.itemColumn f = b.itemColumn f

/-- The node `p` of the operator `c` looks at declared fields, its operator reads declared fields and gives one answer,
and an output that passes the gates stays within what `c` declares. -/
structure RunEnv.Declared (env : RunEnv σ) (c : OperatorConfig) (p : NodePlan) : Prop where
  skip : ∀ f ∈ p.op.skip, f ∈ c.metadata.commonReadFields
  template : ∀ f ∈ p.template.map TemplatedParam.field, f ∈ c.metadata.commonReadFields
  strictCommon : ∀ f ∈ p.spec.strictCommon, f ∈ c.metadata.commonReadFields
  nullableCommon : ∀ f ∈ p.spec.nullableCommon, f ∈ c.metadata.commonReadFields
  strictItem : ∀ f ∈ p.spec.strictItem, f ∈ c.metadata.itemInput
  nullableItem : ∀ f ∈ p.spec.nullableItem, f ∈ c.metadata.itemInput
  sharded : 1 < p.op.dataParallel → c.TouchesRows
  covers : ∀ out, validateOutputAgainstType p.op.name p.op.operatorType out = .ok () →
    validateDeclaredOutputs p.op.name p.op out = .ok () → c.Covers out
  reads : ∀ a b resolved att, OperatorInput.AgreesOn c a b → env.exec p.op a resolved att → env.exec p.op b resolved att
  once : ∀ a resolved att att', env.exec p.op a resolved att → env.exec p.op a resolved att' → att = att'

/-! ## Frames that look alike to a node -/

/-- Skipping, resolving and dispatching come out alike on the two frames. -/
structure RunEnv.Alike (env : RunEnv σ) (p : NodePlan) (s t : FrameState σ) : Prop where
  skip : (shouldSkip p.op.skip).run s.common.find? = (shouldSkip p.op.skip).run t.common.find?
  resolve : (env.text.resolveTemplatedParams p.template ∅).run s.common.find? =
    (env.text.resolveTemplatedParams p.template ∅).run t.common.find?
  itemCount : 1 < p.op.dataParallel → (env.storage.view s none).itemCount = (env.storage.view t none).itemCount
  dispatches : ∀ resolved w out, env.Dispatches p resolved s w (.ok out) → env.Dispatches p resolved t w (.ok out)

section Alike
variable {env : RunEnv σ} {part : String → σ → π} {c : OperatorConfig} {p : NodePlan} {s t : FrameState σ}

/-- The input check reads the fields of the specification. -/
theorem inputViolation_congr {a b : Frame} {spec : InputFieldSpec}
    (hcommon : ∀ f ∈ spec.strictCommon, a.common f = b.common f)
    (hhas : ∀ f ∈ spec.nullableCommon, a.hasCommon f = b.hasCommon f)
    (hstrict : spec.strictItem ≠ [] → a.validateStrictItems spec.strictItem = b.validateStrictItems spec.strictItem)
    (hcount : spec.nullableItem ≠ [] → a.itemCount = b.itemCount)
    (hitem : ∀ f ∈ spec.nullableItem, ∀ i, a.itemHas i f = b.itemHas i f) : a.inputViolation spec = b.inputViolation spec := by
  have h₁ : a.commonViolation spec = b.commonViolation spec := by
    unfold Frame.commonViolation
    congr 1
    · exact List.findSome?_congr_mem fun f hf => by rw [hcommon f hf]
    · exact List.findSome?_congr_mem fun f hf => by rw [hhas f hf]
  have h₂ : a.strictItemViolation spec = b.strictItemViolation spec := by
    unfold Frame.strictItemViolation
    split
    · rfl
    · next hne => rw [hstrict fun hnil => hne (List.isEmpty_iff.mpr hnil)]
  have h₃ : a.nullableItemViolation spec = b.nullableItemViolation spec := by
    unfold Frame.nullableItemViolation
    refine List.findSome?_congr_mem fun f hf => ?_
    rw [hcount (List.ne_nil_of_mem hf)]
    exact List.findSome?_congr_mem fun i _ => by rw [hitem f hf i]
  unfold Frame.inputViolation
  rw [h₁, h₂, h₃]

/-- Frames that hold the same at the places an operator reads look alike to its node. -/
theorem RunEnv.Declared.alike (h : env.Declared c p) (hS : env.storage.Fieldwise part)
    (hsame : ∀ x, c.ReadsPlace x → FrameState.SameAt part x s t) : env.Alike p s t := by
  have hcommon : ∀ f ∈ c.metadata.commonReadFields, s.common.find? f = t.common.find? f := fun f hf => hsame (.common f) hf
  have hitem : ∀ f ∈ c.metadata.itemInput, part f s.items = part f t.items := fun f hf => hsame (.item f) (Or.inl hf)
  have hrows : c.TouchesRows → env.storage.store.rowCount s.items = env.storage.store.rowCount t.items := fun hr =>
    hS.rowCount (hsame (.item kRowSet) (Or.inr ⟨rfl, hr⟩))
  have hcount : ∀ w, c.TouchesRows → (env.storage.view s w).itemCount = (env.storage.view t w).itemCount :=
    fun w hr => hS.itemCount w (hrows hr)
  have htouches : c.metadata.itemInput ≠ [] → c.TouchesRows := fun hne => by
    obtain ⟨f, hf⟩ := List.exists_mem_of_ne_nil _ hne
    have hread : c.Accesses false f .read := .itemRead hf
    exact hread.rowSet
  refine ⟨?_, ?_, fun hd => hcount none (h.sharded hd), fun resolved w out hd => ?_⟩
  · exact (ReadProgram.run_congr _ fun f hf => (hcommon f (h.skip f (mem_of_reads_shouldSkip hf))).symm).1.symm
  · exact (ReadProgram.run_congr _ fun f hf => (hcommon f (h.template f (mem_of_reads_resolve hf))).symm).1.symm
  · have hviolation : (env.storage.view s w).inputViolation p.spec = (env.storage.view t w).inputViolation p.spec := by
      refine inputViolation_congr (fun f hf => ?_) (fun f hf => ?_) (fun hne => ?_) (fun hne => ?_) fun f hf i => ?_
      · rw [hS.common, hS.common, hcommon f (h.strictCommon f hf)]
      · rw [hS.hasCommon, hS.hasCommon, hcommon f (h.nullableCommon f hf)]
      · obtain ⟨f, hf⟩ := List.exists_mem_of_ne_nil _ hne
        have hr := htouches (List.ne_nil_of_mem (h.strictItem f hf))
        exact hS.validateStrictItems w (hrows hr) fun f hf => hitem f (h.strictItem f hf)
      · obtain ⟨f, hf⟩ := List.exists_mem_of_ne_nil _ hne
        exact hcount w (htouches (List.ne_nil_of_mem (h.nullableItem f hf)))
      · exact hS.itemHas w i (hitem f (h.nullableItem f hf))
    have hagrees : OperatorInput.AgreesOn c ⟨env.storage.view s w, p.spec⟩ ⟨env.storage.view t w, p.spec⟩ := by
      refine ⟨fun f hf => ?_, fun hr => hcount w hr, fun f hf i => ?_, fun f hf => ?_⟩
      · unfold OperatorInput.common
        dsimp only
        rw [hS.common, hS.common, hcommon f hf]
      · have hn : (env.storage.view s w).itemCount = (env.storage.view t w).itemCount :=
          hcount w (htouches (List.ne_nil_of_mem hf))
        unfold OperatorInput.item OperatorInput.itemCount
        dsimp only
        rw [hn, hS.item w i (hitem f hf)]
      · unfold OperatorInput.itemColumn
        dsimp only
        rw [hS.itemColumn w (hitem f hf)]
    cases hd with
    | returns hbuild hexec =>
      unfold buildOperatorInput at hbuild
      split at hbuild
      · cases hbuild
      · next hnone =>
        obtain rfl := Except.ok.inj hbuild
        refine .returns ?_ (h.reads _ _ _ _ hagrees hexec)
        unfold buildOperatorInput
        rw [← hviolation, hnone]

/-- One execution has one outcome. -/
theorem RunEnv.Declared.dispatches_once (h : env.Declared c p) {resolved : Row} {w : Option Window}
    {out out' : OperatorOutput} (hd : env.Dispatches p resolved s w (.ok out))
    (hd' : env.Dispatches p resolved s w (.ok out')) : out = out' := by
  cases hd with
  | returns hbuild hexec =>
    cases hd' with
    | returns hbuild' hexec' =>
      rw [hbuild] at hbuild'
      obtain rfl := Except.ok.inj hbuild'
      exact congrArg Attempt.out (h.once _ _ _ _ hexec hexec')

end Alike

end Pineapple
