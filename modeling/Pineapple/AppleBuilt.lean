import Pineapple.AppleCompile
import Pineapple.Lib.Except

/-! # What holds of a flow while it is built

`Built`: every field of a skip list is written by a control operator of the same node whose own guards are in that
list, and the branches of a block come one after the other. Every method call keeps it. -/

namespace Pineapple.Apple

/-! ## Control operators -/

/-- The operator decides the field `f`. -/
def OpCall.Controls (c : OpCall) (f : String) : Prop := c.forBranchControl = true ∧ c.commonOutput = [f]

def OpCall.script? (c : OpCall) : Option ControlScript :=
  match c.params.lookup "lua_script" with
  | some (.script s) => some s
  | _ => none

/-- The fields the operator's script looks at. -/
def OpCall.priorFields (c : OpCall) : List String := ((c.script?.map ControlScript.prior).getD []).map LuaName.field

/-- The fields are decided by operators that have no further guards. -/
def Covered (ops : List OpCall) (fields : List String) : Prop := ∀ f ∈ fields, ∃ c ∈ ops, c.Controls f ∧ c.skip ⊆ fields

/-- The branch of `g` is not taken unless that of `f` is not. -/
def After (ops : List OpCall) (f g : String) : Prop := ∃ c ∈ ops, c.Controls g ∧ f ∈ c.priorFields

/-- The branches of one block, in their order. -/
structure Branches (ops : List OpCall) (fields : List String) : Prop where
  controlled : ∀ f ∈ fields, ∃ c ∈ ops, c.Controls f
  after : fields.Pairwise (After ops)

theorem Covered.mono {ops ops' : List OpCall} {fields : List String} (h : Covered ops fields) (hsub : ops ⊆ ops') :
    Covered ops' fields := by
  intro f hf
  obtain ⟨c, hc, hctrl, hskip⟩ := h f hf
  exact ⟨c, hsub hc, hctrl, hskip⟩

theorem After.mono {ops ops' : List OpCall} {f g : String} (h : After ops f g) (hsub : ops ⊆ ops') : After ops' f g := by
  obtain ⟨c, hc, hrest⟩ := h
  exact ⟨c, hsub hc, hrest⟩

theorem Branches.mono {ops ops' : List OpCall} {fields : List String} (h : Branches ops fields) (hsub : ops ⊆ ops') :
    Branches ops' fields := by
  refine ⟨fun f hf => ?_, h.after.imp fun hfg => hfg.mono hsub⟩
  obtain ⟨c, hc, hctrl⟩ := h.controlled f hf
  exact ⟨c, hsub hc, hctrl⟩

/-! ## The names of control operators -/

/-- What the fields of a branch begin with. -/
def BranchKind.fieldText : BranchKind → String
  | .if => "_if_"
  | .elseif => "_elif_"
  | .else => "_else_"

/-- The operator as `makeControlOp` names it. -/
structure OpCall.IsControl (c : OpCall) (kind : BranchKind) (n : Nat) : Prop where
  control : c.forBranchControl = true
  name : c.name = kind.text ++ "_" ++ toString n
  output : c.commonOutput = [kind.fieldText ++ toString n]
  scripted : ∃ s, c.script? = some s ∧ ∀ g, .global g ∉ s.prior

theorem isDigit_toString {n : Nat} {c : Char} (h : c ∈ (toString n).toList) : c.isDigit = true := by
  rw [Nat.toString_eq_repr, Nat.repr_eq_ofList_toDigits, String.toList_ofList] at h
  exact Nat.isDigit_of_mem_toDigits (by decide) (by decide) h

theorem toDigits_inj {n n' : Nat} (h : Nat.toDigits 10 n = Nat.toDigits 10 n') : n = n' := by
  have hread (m : Nat) : Nat.ofDigitChars 10 (Nat.toDigits 10 m) 0 = m := Nat.ofDigitChars_toDigits (by decide) le_rfl
  rw [← hread n, h, hread]

/-- The field tells the branch. -/
theorem fieldText_inj {kind kind' : BranchKind} {n n' : Nat}
    (h : kind.fieldText ++ toString n = kind'.fieldText ++ toString n') : kind = kind' ∧ n = n' := by
  have hl := congrArg String.toList h
  simp only [String.toList_append] at hl
  cases kind <;> cases kind' <;> simp [BranchKind.fieldText] at hl <;> exact ⟨rfl, toDigits_inj hl⟩

theorem colon_not_mem_field (kind : BranchKind) (n : Nat) : ':' ∉ (kind.fieldText ++ toString n).toList := by
  intro h
  rw [String.toList_append, List.mem_append] at h
  rcases h with h | h
  · cases kind <;> simp [BranchKind.fieldText] at h
  · exact absurd (isDigit_toString h) (by decide)

/-! ## Guards on a call -/

theorem mem_skip_applySkipFields {call : OpCall} {fields : List String} {f : String} :
    f ∈ (call.applySkipFields fields).skip ↔ f ∈ call.skip ∨ f ∈ fields := by
  unfold OpCall.applySkipFields
  induction fields generalizing call with
  | nil => simp
  | cons g fields ih =>
    rw [List.foldl_cons, ih, List.mem_cons]
    have hone : f ∈ (call.applySkipField g).skip ↔ f ∈ call.skip ∨ f = g := by
      simp only [OpCall.applySkipField]
      split
      · next hg =>
        refine ⟨Or.inl, ?_⟩
        rintro (h | rfl)
        · exact h
        · exact hg
      · rw [List.mem_append, List.mem_singleton]
    rw [hone, or_assoc]

section
variable (call : OpCall) (fields : List String)

/-- What the guards leave as it is. -/
theorem applySkipFields_keeps :
    (call.applySkipFields fields).forBranchControl = call.forBranchControl ∧
    (call.applySkipFields fields).commonOutput = call.commonOutput ∧
    (call.applySkipFields fields).params = call.params ∧ (call.applySkipFields fields).name = call.name := by
  unfold OpCall.applySkipFields
  induction fields generalizing call with
  | nil => exact ⟨rfl, rfl, rfl, rfl⟩
  | cons g fields ih => exact ih (call.applySkipField g)

@[simp] theorem forBranchControl_applySkipFields :
    (call.applySkipFields fields).forBranchControl = call.forBranchControl := (applySkipFields_keeps call fields).1

@[simp] theorem commonOutput_applySkipFields : (call.applySkipFields fields).commonOutput = call.commonOutput :=
  (applySkipFields_keeps call fields).2.1

@[simp] theorem name_applySkipFields : (call.applySkipFields fields).name = call.name :=
  (applySkipFields_keeps call fields).2.2.2

@[simp] theorem script?_applySkipFields : (call.applySkipFields fields).script? = call.script? := by
  unfold OpCall.script?
  rw [(applySkipFields_keeps call fields).2.2.1]

@[simp] theorem priorFields_applySkipFields : (call.applySkipFields fields).priorFields = call.priorFields := by
  unfold OpCall.priorFields
  rw [script?_applySkipFields]

end

/-- The engine looks at nothing for its guards that the operator does not declare. -/
def OpCall.GuardsRead (c : OpCall) : Prop := c.skip ⊆ c.commonInput ++ c.commonInputSkip

theorem OpCall.GuardsRead.applySkipFields {call : OpCall} (h : call.GuardsRead) (fields : List String) :
    (call.applySkipFields fields).GuardsRead := by
  unfold OpCall.applySkipFields
  induction fields generalizing call with
  | nil => exact h
  | cons g fields ih =>
    refine @ih (call.applySkipField g) fun f hf => ?_
    have hread : f ∈ call.commonInput ++ call.commonInputSkip ∨ f = g := by
      simp only [OpCall.applySkipField] at hf
      split at hf
      · exact Or.inl (h hf)
      · rcases List.mem_append.mp hf with hf | hf
        · exact Or.inl (h hf)
        · exact Or.inr (List.mem_singleton.mp hf)
    simp only [OpCall.applySkipField, List.mem_append] at hread ⊢
    split
    · next hg =>
      rcases hread with hread | rfl
      · exact hread
      · exact hg
    · rcases hread with (hread | hread) | rfl
      · exact Or.inl hread
      · exact Or.inr (List.mem_append_left _ hread)
      · exact Or.inr (List.mem_append_right _ (List.mem_singleton_self _))

theorem controls_makeControlOp (env : Env) (branch : ControlBranch) (prior : List String) (condition : Option String)
    (guards : List String) :
    ((makeControlOp env branch prior condition).applySkipFields guards).Controls branch.ctrlField :=
  ⟨by simp [makeControlOp], by simp [makeControlOp]⟩

theorem priorFields_makeControlOp (env : Env) (branch : ControlBranch) (prior : List String)
    (condition : Option String) (guards : List String) :
    ((makeControlOp env branch prior condition).applySkipFields guards).priorFields = prior := by
  rw [priorFields_applySkipFields]
  simp [makeControlOp, OpCall.priorFields, OpCall.script?, Function.comp_def, LuaName.field]

/-! ## The invariant -/

/-- A node under construction. -/
structure Built (node : FlowBase) : Prop where
  ops : ∀ op ∈ node.ops, Covered node.ops op.skip
  subs : ∀ info children, .sf info children ∈ node.children → Covered node.ops info.parentSkips
  blocks : ∀ block ∈ node.info.closedBlocks ++ node.info.ctrlStack,
    Branches node.ops (block.branches.map ControlBranch.ctrlField)
  /-- The guards of the branch a block is in are the branches that the blocks around it are in. -/
  stack : ∀ pre block post, node.info.ctrlStack = pre ++ block :: post → ∀ f ∈ block.current,
    ∃ c ∈ node.ops, c.Controls f ∧ c.skip ⊆ pre.flatMap ControlBlock.current
  read : ∀ op ∈ node.ops, op.GuardsRead
  named : ∀ c ∈ node.ops, c.forBranchControl = true → ∃ kind n, c.IsControl kind n ∧ n ≤ node.info.ctrlCounter
  distinct : node.ops.Pairwise fun a b =>
    a.forBranchControl = true → b.forBranchControl = true → a.commonOutput ≠ b.commonOutput

theorem ops_addChild_op (node : FlowBase) (call : OpCall) : (node.addChild (.op call)).ops = node.ops ++ [call] := by
  simp [FlowBase.addChild, FlowBase.ops, Child.op?]

theorem ops_addChild_sf (node : FlowBase) (info : FlowInfo) (children : List Child) :
    (node.addChild (.sf info children)).ops = node.ops := by
  simp [FlowBase.addChild, FlowBase.ops, Child.op?]

namespace Built
variable {node : FlowBase}

theorem new (info : FlowInfo) (hstack : info.ctrlStack = []) (hclosed : info.closedBlocks = []) : Built { info } := by
  constructor <;> simp [FlowBase.ops, hstack, hclosed]

/-- The current branches guard what is declared now. -/
theorem covered_active (h : Built node) (current : Bool) : Covered node.ops (node.info.activeSkipFields current) := by
  intro f hf
  unfold FlowInfo.activeSkipFields at hf ⊢
  obtain ⟨block, hblock, hf⟩ := List.mem_flatMap.mp hf
  obtain ⟨pre, post, hsplit⟩ := List.append_of_mem hblock
  have hstack : ∃ post', node.info.ctrlStack = pre ++ block :: post' := by
    cases current with
    | true => exact ⟨post, by simpa using hsplit⟩
    | false =>
      have hdrop : node.info.ctrlStack.dropLast = pre ++ block :: post := by simpa using hsplit
      obtain ⟨rest, hrest⟩ := List.dropLast_prefix node.info.ctrlStack
      exact ⟨post ++ rest, by rw [← hrest, hdrop]; simp⟩
  obtain ⟨post', hstack⟩ := hstack
  obtain ⟨c, hc, hctrl, hskip⟩ := h.stack pre block post' hstack f hf
  refine ⟨c, hc, hctrl, fun g hg => ?_⟩
  rw [hsplit, List.flatMap_append]
  exact List.mem_append_left _ (hskip hg)

theorem addChild_sf (h : Built node) (info : FlowInfo) (children : List Child)
    (hinfo : info.parentSkips = node.info.activeSkipFields true) : Built (node.addChild (.sf info children)) := by
  have hops := ops_addChild_sf node info children
  constructor
  · rw [hops]
    exact h.ops
  · intro info' children' hmem
    rw [hops]
    rcases List.mem_append.mp hmem with hmem | hmem
    · exact h.subs info' children' hmem
    · obtain ⟨rfl, -⟩ := Child.sf.inj (List.mem_singleton.mp hmem)
      rw [hinfo]
      exact h.covered_active true
  · rw [hops]
    exact h.blocks
  · rw [hops]
    exact h.stack
  · rw [hops]
    exact h.read
  · rw [hops]
    exact h.named
  · rw [hops]
    exact h.distinct

/-- A call under the current branches, with the blocks left as they are. -/
theorem addChild_op (h : Built node) (call : OpCall) (hcall : call.forBranchControl = false)
    (hskip : ∀ f, f ∈ call.skip ↔ f ∈ node.info.activeSkipFields true) (hread : call.GuardsRead) :
    Built (node.addChild (.op call)) := by
  have hops := ops_addChild_op node call
  have hsub : node.ops ⊆ node.ops ++ [call] := List.subset_append_left ..
  have hcover : Covered (node.ops ++ [call]) call.skip := by
    intro f hf
    obtain ⟨c, hc, hctrl, hguards⟩ := h.covered_active true f ((hskip f).mp hf)
    exact ⟨c, hsub hc, hctrl, fun g hg => (hskip g).mpr (hguards hg)⟩
  constructor
  · rw [hops]
    intro op hop
    rcases List.mem_append.mp hop with hop | hop
    · exact (h.ops op hop).mono hsub
    · exact List.mem_singleton.mp hop ▸ hcover
  · intro info children hmem
    rw [hops]
    rcases List.mem_append.mp hmem with hmem | hmem
    · exact (h.subs info children hmem).mono hsub
    · exact absurd (List.mem_singleton.mp hmem) nofun
  · rw [hops]
    exact fun block hblock => (h.blocks block hblock).mono hsub
  · rw [hops]
    intro pre block post hstack f hf
    obtain ⟨c, hc, hrest⟩ := h.stack pre block post hstack f hf
    exact ⟨c, hsub hc, hrest⟩
  · rw [hops]
    intro op hop
    rcases List.mem_append.mp hop with hop | hop
    · exact h.read op hop
    · exact List.mem_singleton.mp hop ▸ hread
  · rw [hops]
    intro c hc hctrl
    rcases List.mem_append.mp hc with hc | hc
    · exact h.named c hc hctrl
    · rw [List.mem_singleton.mp hc, hcall] at hctrl
      exact absurd hctrl Bool.false_ne_true
  · rw [hops, List.pairwise_append]
    refine ⟨h.distinct, List.pairwise_singleton _ _, fun a _ b hb _ hctrl => ?_⟩
    rw [List.mem_singleton.mp hb, hcall] at hctrl
    exact absurd hctrl Bool.false_ne_true

/-- The control operator of a branch that is opened on top of `pre`, guarded by the branches of `pre`. -/
theorem addControlOp (h : Built node) (env : Env) {pre rest : List ControlBlock} {block : ControlBlock}
    {branch : ControlBranch} {info : FlowInfo} (hpre : node.info.ctrlStack = pre ++ rest)
    (hold : Branches node.ops (block.branches.map ControlBranch.ctrlField))
    (hindex : branch.ctrlIndex = node.info.ctrlCounter + 1)
    (hfield : branch.ctrlField = branch.kind.fieldText ++ toString branch.ctrlIndex)
    (hcounter : info.ctrlCounter = branch.ctrlIndex) (hclosed : info.closedBlocks = node.info.closedBlocks)
    (hstack : info.ctrlStack = pre ++ [{ block with branches := block.branches ++ [branch] }]) :
    Built (FlowBase.addControlOp env branch (block.branches.map ControlBranch.ctrlField)
      (pre.flatMap ControlBlock.current) { node with info }) := by
  have hctrl := controls_makeControlOp env branch (block.branches.map ControlBranch.ctrlField) branch.condition
    (pre.flatMap ControlBlock.current)
  have hprior := priorFields_makeControlOp env branch (block.branches.map ControlBranch.ctrlField) branch.condition
    (pre.flatMap ControlBlock.current)
  have hisControl : ((makeControlOp env branch (block.branches.map ControlBranch.ctrlField) branch.condition).applySkipFields
      (pre.flatMap ControlBlock.current)).IsControl branch.kind branch.ctrlIndex :=
    ⟨hctrl.1, by rw [name_applySkipFields]; rfl, by rw [hctrl.2, hfield],
      ⟨_, script?_applySkipFields _ _, by simp⟩⟩
  have hskip : ∀ f, f ∈ ((makeControlOp env branch (block.branches.map ControlBranch.ctrlField)
      branch.condition).applySkipFields (pre.flatMap ControlBlock.current)).skip ↔
      f ∈ pre.flatMap ControlBlock.current := by
    intro f
    rw [mem_skip_applySkipFields]
    simp [makeControlOp]
  have hread : ((makeControlOp env branch (block.branches.map ControlBranch.ctrlField) branch.condition).applySkipFields
      (pre.flatMap ControlBlock.current)).GuardsRead :=
    OpCall.GuardsRead.applySkipFields (by simp [OpCall.GuardsRead, makeControlOp]) _
  unfold FlowBase.addControlOp
  generalize (makeControlOp env branch (block.branches.map ControlBranch.ctrlField) branch.condition).applySkipFields
    (pre.flatMap ControlBlock.current) = call at hctrl hprior hisControl hskip hread ⊢
  have hops : (({ node with info } : FlowBase).addChild (.op call)).ops = node.ops ++ [call] :=
    ops_addChild_op { node with info } call
  have hsub : node.ops ⊆ node.ops ++ [call] := List.subset_append_left ..
  have hmem : call ∈ node.ops ++ [call] := List.mem_append_right _ (List.mem_singleton_self call)
  have hguards : ∀ pre' b post, pre = pre' ++ b :: post → ∀ f ∈ b.current,
      ∃ c ∈ node.ops ++ [call], c.Controls f ∧ c.skip ⊆ pre'.flatMap ControlBlock.current := by
    intro pre' b post heq f hf
    obtain ⟨c, hc, hrest⟩ := h.stack pre' b (post ++ rest) (by rw [hpre, heq]; simp) f hf
    exact ⟨c, hsub hc, hrest⟩
  have hcover : Covered (node.ops ++ [call]) (pre.flatMap ControlBlock.current) := by
    intro f hf
    obtain ⟨b, hb, hf⟩ := List.mem_flatMap.mp hf
    obtain ⟨pre', post, heq⟩ := List.append_of_mem hb
    obtain ⟨c, hc, hc', hcskip⟩ := hguards pre' b post heq f hf
    refine ⟨c, hc, hc', fun g hg => ?_⟩
    rw [heq, List.flatMap_append]
    exact List.mem_append_left _ (hcskip hg)
  have hbranches : Branches (node.ops ++ [call]) ((block.branches ++ [branch]).map ControlBranch.ctrlField) := by
    rw [List.map_append, List.map_singleton]
    constructor
    · intro f hf
      rcases List.mem_append.mp hf with hf | hf
      · exact (hold.mono hsub).controlled f hf
      · exact ⟨call, hmem, List.mem_singleton.mp hf ▸ hctrl⟩
    · rw [List.pairwise_append]
      refine ⟨(hold.mono hsub).after, List.pairwise_singleton _ _, fun f hf g hg => ?_⟩
      rw [List.mem_singleton.mp hg]
      exact ⟨call, hmem, hctrl, hprior.symm ▸ hf⟩
  constructor
  · rw [hops]
    intro op hop
    rcases List.mem_append.mp hop with hop | hop
    · exact (h.ops op hop).mono hsub
    · rw [List.mem_singleton.mp hop]
      intro f hf
      obtain ⟨c, hc, hc', hcskip⟩ := hcover f ((hskip f).mp hf)
      exact ⟨c, hc, hc', fun g hg => (hskip g).mpr (hcskip hg)⟩
  · intro info' children hchild
    rw [hops]
    rcases List.mem_append.mp hchild with hchild | hchild
    · exact (h.subs info' children hchild).mono hsub
    · cases List.mem_singleton.mp hchild
  · rw [hops]
    intro b hb
    rw [show (({ node with info } : FlowBase).addChild (.op call)).info = info from rfl, hclosed, hstack,
      ← List.append_assoc, List.mem_append, List.mem_singleton] at hb
    rcases hb with hb | rfl
    · refine (h.blocks b ?_).mono hsub
      rw [hpre, ← List.append_assoc]
      exact List.mem_append_left _ hb
    · exact hbranches
  · rw [hops]
    intro pre' b post heq f hf
    rw [show (({ node with info } : FlowBase).addChild (.op call)).info = info from rfl, hstack] at heq
    rcases List.eq_nil_or_concat' post with rfl | ⟨post', last, rfl⟩
    · obtain ⟨rfl, hb⟩ := List.append_inj' heq rfl
      obtain rfl := (List.cons.inj hb).1
      have hf' : f = branch.ctrlField := by simpa [ControlBlock.current] using hf
      exact ⟨call, hmem, hf' ▸ hctrl, fun g hg => (hskip g).mp hg⟩
    · rw [← List.cons_append, ← List.append_assoc] at heq
      exact hguards pre' b post' (List.append_inj' heq rfl).1 f hf
  · rw [hops]
    intro op hop
    rcases List.mem_append.mp hop with hop | hop
    · exact h.read op hop
    · exact List.mem_singleton.mp hop ▸ hread
  · rw [hops]
    intro c hc hc'
    show ∃ kind n, c.IsControl kind n ∧ n ≤ info.ctrlCounter
    rw [hcounter]
    rcases List.mem_append.mp hc with hc | hc
    · obtain ⟨kind, n, hnamed, hle⟩ := h.named c hc hc'
      exact ⟨kind, n, hnamed, by omega⟩
    · exact ⟨branch.kind, branch.ctrlIndex, List.mem_singleton.mp hc ▸ hisControl, le_rfl⟩
  · rw [hops, List.pairwise_append]
    refine ⟨h.distinct, List.pairwise_singleton _ _, fun a ha b hb hactrl _ heq => ?_⟩
    obtain ⟨kind, n, hnamed, hle⟩ := h.named a ha hactrl
    rw [List.mem_singleton.mp hb, hnamed.output, hisControl.output] at heq
    have hn := (fieldText_inj (List.cons.inj heq).1).2
    omega

theorem if_ (h : Built node) (env : Env) {condition : String} {node' : FlowBase}
    (hrun : node.if_ env condition = .ok node') : Built node' := by
  unfold FlowBase.if_ at hrun
  split at hrun
  · cases hrun
  · cases hrun
    refine @addControlOp _ h env _ [] { blockId := node.info.ctrlCounter + 1 } _ _ (by simp)
      ⟨by simp, by simp⟩ rfl rfl rfl rfl rfl

theorem addBranch (h : Built node) (env : Env) {kind : BranchKind} {condition : Option String} {block : ControlBlock}
    (hblock : node.info.ctrlStack.getLast? = some block) :
    Built (node.addBranch env kind kind.fieldText condition block) := by
  have hstack := List.dropLast_append_getLast? block hblock
  refine h.addControlOp env hstack.symm (h.blocks block ?_) rfl rfl rfl rfl rfl
  exact List.mem_append_right _ (List.mem_of_getLast? hblock)

theorem elseif_ (h : Built node) (env : Env) {condition : String} {node' : FlowBase}
    (hrun : node.elseif_ env condition = .ok node') : Built node' := by
  unfold FlowBase.elseif_ at hrun
  split at hrun
  · cases hrun
  · split at hrun
    · cases hrun
    · next block hblock =>
      split_ifs at hrun
      cases hrun
      exact h.addBranch env hblock

theorem else_ (h : Built node) (env : Env) {node' : FlowBase} (hrun : node.else_ env = .ok node') : Built node' := by
  unfold FlowBase.else_ at hrun
  split at hrun
  · cases hrun
  · next block hblock =>
    split_ifs at hrun
    cases hrun
    exact h.addBranch env hblock

theorem endIf_ (h : Built node) (env : Env) {node' : FlowBase} (hrun : node.endIf_ env = .ok node') :
    Built node' := by
  unfold FlowBase.endIf_ at hrun
  split at hrun
  · cases hrun
  · next block hblock =>
    simp only at hrun
    split at hrun
    · cases hrun
    · cases hrun
      have hstack := List.dropLast_append_getLast? block hblock
      refine ⟨h.ops, h.subs, fun b hb => ?_, fun pre b post heq => ?_, h.read, h.named, h.distinct⟩
      · rw [List.mem_append, List.mem_append, List.mem_singleton] at hb
        rcases hb with (hb | rfl) | hb
        · exact h.blocks b (List.mem_append_left _ hb)
        · exact h.blocks block (List.mem_append_right _ (List.mem_of_getLast? hblock))
        · exact h.blocks b (List.mem_append_right _ (List.dropLast_subset _ hb))
      · refine h.stack pre b (post ++ [block]) ?_
        rw [← hstack, show node.info.ctrlStack.dropLast = pre ++ b :: post from heq]
        simp

theorem addOp (h : Built node) (env : Env) (typeName : String) (kwargs : Kwargs) :
    Built (node.addOp env typeName kwargs) := by
  refine h.addChild_op _ (forBranchControl_applySkipFields _ _) (fun f => ?_) ?_
  · rw [mem_skip_applySkipFields]
    simp
  · exact OpCall.GuardsRead.applySkipFields (by simp [OpCall.GuardsRead]) _

theorem addSubflow (h : Built node) (env : Env) {sf node' : FlowBase} (hrun : node.addSubflow env sf = .ok node') :
    Built node' := by
  unfold FlowBase.addSubflow at hrun
  split_ifs at hrun
  cases hrun
  exact h.addChild_sf _ _ rfl

end Built

/-! ## Flows and their sub-flows -/

/-- The invariant for a node and for every node below it. -/
inductive WellBuilt : FlowInfo → List Child → Prop
  | mk {info children} : Built ⟨info, children⟩ →
      (∀ info' children', .sf info' children' ∈ children → WellBuilt info' children') → WellBuilt info children

namespace WellBuilt
variable {info : FlowInfo} {children : List Child}

theorem built (h : WellBuilt info children) : Built ⟨info, children⟩ := by
  cases h with
  | mk hbuilt _ => exact hbuilt

theorem nested (h : WellBuilt info children) {info' : FlowInfo} {children' : List Child}
    (hmem : .sf info' children' ∈ children) : WellBuilt info' children' := by
  cases h with
  | mk _ hbelow => exact hbelow info' children' hmem

/-- The guards of the place a sub-flow is put to are no part of it. -/
theorem setParentSkips (h : WellBuilt info children) (skips : List String) :
    WellBuilt { info with parentSkips := skips } children :=
  .mk ⟨h.built.ops, h.built.subs, h.built.blocks, h.built.stack, h.built.read, h.built.named, h.built.distinct⟩ fun _ _ => h.nested

theorem of_ops {info' : FlowInfo} {children' : List Child} (h : WellBuilt info children)
    (hbuilt : Built ⟨info', children'⟩) (hsub : ∀ i cs, .sf i cs ∈ children' → .sf i cs ∈ children) :
    WellBuilt info' children' :=
  .mk hbuilt fun i cs hmem => h.nested (hsub i cs hmem)

end WellBuilt

theorem mem_addControlOp {env : Env} {branch : ControlBranch} {prior guards : List String} {node : FlowBase}
    {info : FlowInfo} {children : List Child}
    (h : .sf info children ∈ (node.addControlOp env branch prior guards).children) : .sf info children ∈ node.children := by
  rcases List.mem_append.mp h with h | h
  · exact h
  · cases List.mem_singleton.mp h

mutual

theorem Call.run_wellBuilt (env : Env) : ∀ (call : Call) {node node' : FlowBase},
    call.run env node = .ok node' → WellBuilt node.info node.children → WellBuilt node'.info node'.children
  | .op typeName kwargs, node, node', hrun, h => by
    rw [Call.run] at hrun
    cases hrun
    refine h.of_ops (h.built.addOp env typeName kwargs) fun i cs hmem => ?_
    rcases List.mem_append.mp hmem with hmem | hmem
    · exact hmem
    · cases List.mem_singleton.mp hmem
  | .addSubflow name contract calls, node, node', hrun, h => by
    rw [Call.run, Except.bind_eq_ok] at hrun
    obtain ⟨sf, hsf, hrun⟩ := hrun
    have hsub := runCalls_wellBuilt env calls hsf (.mk (.new _ rfl rfl) (by simp))
    have hbuilt := h.built.addSubflow env hrun
    unfold FlowBase.addSubflow at hrun
    split_ifs at hrun
    cases hrun
    refine .mk hbuilt fun i cs hmem => ?_
    rcases List.mem_append.mp hmem with hmem | hmem
    · exact h.nested hmem
    · cases List.mem_singleton.mp hmem
      exact hsub.setParentSkips _
  | .if_ condition, node, node', hrun, h => by
    rw [Call.run] at hrun
    have hbuilt := h.built.if_ env hrun
    unfold FlowBase.if_ at hrun
    split_ifs at hrun
    cases hrun
    exact h.of_ops hbuilt fun i cs => mem_addControlOp
  | .elseif_ condition, node, node', hrun, h => by
    rw [Call.run] at hrun
    have hbuilt := h.built.elseif_ env hrun
    unfold FlowBase.elseif_ at hrun
    split at hrun
    · cases hrun
    · split at hrun
      · cases hrun
      · split_ifs at hrun
        cases hrun
        exact h.of_ops hbuilt fun i cs => mem_addControlOp
  | .else_, node, node', hrun, h => by
    rw [Call.run] at hrun
    have hbuilt := h.built.else_ env hrun
    unfold FlowBase.else_ at hrun
    split at hrun
    · cases hrun
    · split_ifs at hrun
      cases hrun
      exact h.of_ops hbuilt fun i cs => mem_addControlOp
  | .endIf_, node, node', hrun, h => by
    rw [Call.run] at hrun
    have hbuilt := h.built.endIf_ env hrun
    unfold FlowBase.endIf_ at hrun
    split at hrun
    · cases hrun
    · simp only at hrun
      split at hrun
      · cases hrun
      · cases hrun
        exact h.of_ops hbuilt fun _ _ => id

theorem runCalls_wellBuilt (env : Env) : ∀ (calls : List Call) {node node' : FlowBase},
    runCalls env calls node = .ok node' → WellBuilt node.info node.children → WellBuilt node'.info node'.children
  | [], node, node', hrun, h => by
    rw [runCalls] at hrun
    cases hrun
    exact h
  | call :: calls, node, node', hrun, h => by
    rw [runCalls, Except.bind_eq_ok] at hrun
    obtain ⟨node₁, hcall, hrun⟩ := hrun
    exact runCalls_wellBuilt env calls hrun (Call.run_wellBuilt env call hcall h)

end

/-- Whatever calls build a flow, it is well built. -/
theorem wellBuilt_of_calls (env : Env) {name : String} {contract : Contract} {calls : List Call} {flow : FlowBase}
    (h : runCalls env calls { info := { name, contract } } = .ok flow) : WellBuilt flow.info flow.children :=
  runCalls_wellBuilt env calls h (.mk (.new _ rfl rfl) (by simp))

end Pineapple.Apple
