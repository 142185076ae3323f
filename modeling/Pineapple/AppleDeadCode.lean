import Pineapple.AppleWrites
import Pineapple.ApplyOutput
import Pineapple.RowFrame

/-! # Dead operators (`detect_dead_code` in `apple/validator.py`)

An operator is reported when no input of any operator, earlier ones and its own included, and no list of the output
contract has a field of its outputs. Without it, a run in any order of the operators returns the same
(`removal_safe`), unless the operator changes which items there are. -/

namespace Pineapple.Apple

/-! ## The check -/

/-- The contract's list of a field space. -/
def Contract.outputs (contract : Contract) : Space → List String
  | .common => contract.commonOutput.getD []
  | .item => contract.itemOutput.getD []

/-- `needed_common` and `needed_item`. -/
def needed (ops : List (String × OpCall)) (contract : Contract) (space : Space) : List String :=
  contract.outputs space ++ ops.flatMap fun e => e.2.inputs space

/-- The operators that may be dead: no control operators, no recalls, and none without outputs. -/
def OpCall.mayBeDead (op : OpCall) : Bool :=
  !op.forBranchControl && !op.recall && !(op.commonOutput = [] && op.itemOutput = [])

/-- `produces_needed`. -/
def OpCall.produces (op : OpCall) (fields : Space → List String) : Bool :=
  op.commonOutput.any (· ∈ fields .common) || op.itemOutput.any (· ∈ fields .item)

/-- `detect_dead_code`. -/
def detectDeadCode (ops : List (String × OpCall)) (contract : Contract) : List String :=
  (ops.filter fun e => e.2.mayBeDead && !e.2.produces (needed ops contract)).map Prod.fst

/-- `detect_subflow_dead_code`. -/
def detectSubflowDeadCode (sfOps : List (String × OpCall)) (contract : Contract) : List String :=
  if contract.commonOutput = none ∧ contract.itemOutput = none then [] else detectDeadCode sfOps contract

/-! ## Runs -/

/-- What an operator sees of the frame: the common fields and the items' fields that it declares. -/
def OpCall.sight (op : OpCall) (f : RowFrame) : Row × List Row :=
  (projectRow (op.inputs .common) f.common.find?, f.items.map fun row => projectRow op.itemInput row.find?)

/-- The operators' code, by their place among the operators. An operator that fails has no output. -/
abbrev Implementations := Nat → Row × List Row → Option OperatorOutput

/-- An operator writes what it declares, and changes the items only as its row-set markers say. -/
def OpCall.permits (op : OpCall) (out : OperatorOutput) : Bool :=
  out.commonWrites.keys.all (· ∈ op.commonOutput) &&
    (out.itemWrites.all (fun w => decide (w.field ∈ op.itemOutput)) &&
      out.columnWrites.all (fun w => decide (w.field ∈ op.itemOutput))) &&
    (out.addedItems = [] || op.recall || op.additiveWritesRowSet) &&
    ((out.removedItems.keys = [] && out.itemOrder = none) || op.mutatesRowSet)

/-- The operator at place `i` has its turn. -/
def runOp (code : Implementations) (ops : List (String × OpCall)) (f : RowFrame) (i : Nat) : Option RowFrame :=
  match ops[i]? with
  | none => some f
  | some (name, op) =>
    if op.skip.any fun field => ((f.common.find? field).getD .null).truthy then some f
    else do
      let out ← code i (op.sight f)
      if op.permits out then
        match RowFrame.applyOutput f out name op.recall with
        | .ok f' => some f'
        | .fail _ _ => none
      else none

/-- The operators have their turns in the given order. -/
def runOps (code : Implementations) (ops : List (String × OpCall)) (order : List Nat) (f : RowFrame) :
    Option RowFrame :=
  order.foldlM (runOp code ops) f

/-- What the flow returns. -/
def returned (contract : Contract) (f : RowFrame) : Result :=
  f.toResult (contract.outputs .common) (contract.outputs .item)

/-- Whatever the operators do, whatever the request, and in whatever order they have their turns: without the operator
at place `k` the flow returns the same. -/
def RemovalSafe (ops : List (String × OpCall)) (contract : Contract) (k : Nat) : Prop :=
  ∀ code order f f', order.Perm (List.range ops.length) → runOps code ops order f = some f' →
    ∃ g', runOps code ops (order.filter (· ≠ k)) f = some g' ∧ returned contract g' = returned contract f'

/-! ## Frames that differ in dead fields only -/

/-- Frames with the same values outside the given fields. -/
structure SameOutside (dead : Space → List String) (f g : RowFrame) : Prop where
  common : ∀ x ∉ dead .common, f.common.find? x = g.common.find? x
  items : List.Forall₂ (fun r s : Row => ∀ x ∉ dead .item, r.find? x = s.find? x) f.items g.items

section
variable {dead : Space → List String}

theorem forall₂_gather {α : Type} {R : α → α → Prop} {xs ys : List α} (h : List.Forall₂ R xs ys) (idx : List Nat) :
    List.Forall₂ R (InPlace.gather idx xs) (InPlace.gather idx ys) := by
  induction idx with
  | nil => exact .nil
  | cons i idx ih =>
    unfold InPlace.gather at ih ⊢
    rw [List.filterMap_cons, List.filterMap_cons]
    rcases Nat.lt_or_ge i xs.length with hi | hi
    · have hi' : i < ys.length := h.length_eq ▸ hi
      rw [List.getElem?_eq_getElem hi, List.getElem?_eq_getElem hi']
      exact .cons (h.get hi hi') ih
    · rw [List.getElem?_eq_none hi, List.getElem?_eq_none (h.length_eq ▸ hi)]
      exact ih

theorem SameOutside.refl (f : RowFrame) : SameOutside dead f f :=
  ⟨fun _ _ => rfl, List.forall₂_same.mpr fun _ _ _ _ => rfl⟩

theorem find?_insert_congr {r s : Row} {fields : List String} (h : ∀ x ∉ fields, r.find? x = s.find? x) (k : String)
    (v : Variant) : ∀ x ∉ fields, (r.insert k v).find? x = (s.insert k v).find? x := by
  intro x hx
  rw [SortedMap.find?_insert, SortedMap.find?_insert, h x hx]

theorem forall₂_modify {α : Type} {R : α → α → Prop} {xs ys : List α} (h : List.Forall₂ R xs ys) {f : α → α}
    (hf : ∀ a b, R a b → R (f a) (f b)) (i : Nat) : List.Forall₂ R (xs.modify i f) (ys.modify i f) := by
  induction h generalizing i with
  | nil => cases i <;> exact .nil
  | cons hab hrest ih =>
    cases i with
    | zero => exact .cons (hf _ _ hab) hrest
    | succ i => exact .cons hab (ih i)

theorem forall₂_zipWith {α β : Type} {R : α → α → Prop} {xs ys : List α} (h : List.Forall₂ R xs ys) {f : α → β → α}
    (hf : ∀ a b c, R a b → R (f a c) (f b c)) (cs : List β) :
    List.Forall₂ R (List.zipWith f xs cs) (List.zipWith f ys cs) := by
  induction h generalizing cs with
  | nil => exact .nil
  | cons hab hrest ih =>
    cases cs with
    | nil => exact .nil
    | cons c cs => exact .cons (hf _ _ c hab) (ih cs)

theorem projectRow_congr {fields : List String} {get get' : String → Option Variant}
    (h : ∀ x ∈ fields, get x = get' x) : projectRow fields get = projectRow fields get' := by
  unfold projectRow
  refine List.foldl_ext _ _ _ fun row x hx => ?_
  rw [h x hx]

theorem map_projectRow_congr {rows rows' : List Row} {fields deadFields : List String}
    (h : List.Forall₂ (fun r s : Row => ∀ x ∉ deadFields, r.find? x = s.find? x) rows rows')
    (hfields : ∀ x ∈ fields, x ∉ deadFields) :
    (rows.map fun row => projectRow fields row.find?) = rows'.map fun row => projectRow fields row.find? := by
  induction h with
  | nil => rfl
  | cons hrow _ ih =>
    rw [List.map_cons, List.map_cons, ih, projectRow_congr fun x hx => hrow x (hfields x hx)]

namespace SameOutside
variable {f g : RowFrame}

theorem applyCommonWrites (h : SameOutside dead f g) (op : String) (writes : List (String × Variant)) :
    Outcome.Rel (SameOutside dead) (Pineapple.applyCommonWrites op writes f) (Pineapple.applyCommonWrites op writes g) := by
  unfold Pineapple.applyCommonWrites
  refine Outcome.Rel.forEach _ (fun w _ s t hst => ?_) h
  exact Outcome.Rel.checked _ hst fun _ => ⟨find?_insert_congr hst.common w.1 w.2, hst.items⟩

theorem applyItemWrites (h : SameOutside dead f g) (op : String) (writes : List ItemWrite) :
    Outcome.Rel (SameOutside dead) (Pineapple.applyItemWrites RowFrame.store op writes f)
      (Pineapple.applyItemWrites RowFrame.store op writes g) := by
  unfold Pineapple.applyItemWrites
  refine Outcome.Rel.forEach _ (fun w _ s t hst => ?_) h
  have hlen : RowFrame.store.rowCount s.items = RowFrame.store.rowCount t.items := hst.items.length_eq
  rw [hlen]
  refine Outcome.Rel.checked _ hst fun _ => ⟨hst.common, ?_⟩
  exact forall₂_modify hst.items (fun r s hrs => find?_insert_congr hrs w.field w.value) _

theorem applyColumnWrites (h : SameOutside dead f g) (op : String) (writes : List DoubleColumnWrite) :
    Outcome.Rel (SameOutside dead) (Pineapple.applyColumnWrites RowFrame.store op writes f)
      (Pineapple.applyColumnWrites RowFrame.store op writes g) := by
  unfold Pineapple.applyColumnWrites
  refine Outcome.Rel.forEach _ (fun w _ s t hst => ?_) h
  have hlen : RowFrame.store.rowCount s.items = RowFrame.store.rowCount t.items := hst.items.length_eq
  rw [hlen]
  refine Outcome.Rel.checked _ hst fun _ => ⟨hst.common, ?_⟩
  exact forall₂_zipWith hst.items (fun r s d hrs => find?_insert_congr hrs w.field (.number d)) w.vals

theorem applyRemovals (h : SameOutside dead f g) (op : String) (removed : List Int) :
    Outcome.Rel (SameOutside dead) (Pineapple.applyRemovals RowFrame.store op removed f)
      (Pineapple.applyRemovals RowFrame.store op removed g) := by
  unfold Pineapple.applyRemovals
  split
  · exact .ok h
  · have hlen : RowFrame.store.rowCount f.items = RowFrame.store.rowCount g.items := h.items.length_eq
    rw [hlen]
    refine Outcome.Rel.checked _ h fun _ => ⟨h.common, ?_⟩
    show List.Forall₂ _ (dropRows removed f.items) (dropRows removed g.items)
    rw [dropRows_eq_gather, dropRows_eq_gather, h.items.length_eq]
    exact forall₂_gather h.items _

theorem applyReorder (h : SameOutside dead f g) (op : String) (order? : Option (List Int)) :
    Outcome.Rel (SameOutside dead) (Pineapple.applyReorder RowFrame.store op order? f)
      (Pineapple.applyReorder RowFrame.store op order? g) := by
  unfold Pineapple.applyReorder
  split
  · exact .ok h
  · next order =>
    have hlen : RowFrame.store.rowCount f.items = RowFrame.store.rowCount g.items := h.items.length_eq
    rw [hlen]
    refine Outcome.Rel.checked _ h fun _ => ⟨h.common, ?_⟩
    show List.Forall₂ _ (gatherRows order f.items) (gatherRows order g.items)
    rw [gatherRows_eq_gather, gatherRows_eq_gather]
    exact forall₂_gather h.items _

theorem applyAdditions (h : SameOutside dead f g) (op : String) (isRecall : Bool) (added : List Row) :
    Outcome.Rel (SameOutside dead) (Pineapple.applyAdditions RowFrame.store op isRecall added f)
      (Pineapple.applyAdditions RowFrame.store op isRecall added g) := by
  unfold Pineapple.applyAdditions
  split
  · exact .ok h
  · have hrows : Outcome.Rel (List.Forall₂ fun r s : Row => ∀ x ∉ dead .item, r.find? x = s.find? x)
        (RowFrame.addItems op isRecall added f.items) (RowFrame.addItems op isRecall added g.items) := by
      unfold RowFrame.addItems
      refine Outcome.Rel.forEach _ (fun row _ s t hst => ?_) h.items
      exact Outcome.Rel.checked _ hst fun _ => List.rel_append hst (.cons (fun _ _ => rfl) .nil)
    show Outcome.Rel _ ((RowFrame.addItems op isRecall added f.items).map _)
      ((RowFrame.addItems op isRecall added g.items).map _)
    generalize RowFrame.addItems op isRecall added f.items = o at hrows ⊢
    generalize RowFrame.addItems op isRecall added g.items = p at hrows ⊢
    rcases hrows with hitems | hitems
    · exact .ok ⟨h.common, hitems⟩
    · exact .fail ⟨h.common, hitems⟩

/-- One output does the same to both, and fails alike. -/
theorem applyOutput (h : SameOutside dead f g) (out : OperatorOutput) (op : String) (isRecall : Bool) :
    Outcome.Rel (SameOutside dead) (RowFrame.applyOutput f out op isRecall) (RowFrame.applyOutput g out op isRecall) := by
  unfold RowFrame.applyOutput applyOutputWith
  refine ((((((h.applyCommonWrites op _).andThen ?_).andThen ?_).andThen ?_).andThen ?_).andThen ?_).andThen ?_
  · exact fun s t hst => hst.applyItemWrites op _
  · exact fun s t hst => hst.applyColumnWrites op _
  · exact fun s t hst => hst.applyRemovals op _
  · exact fun s t hst => hst.applyReorder op _
  · exact fun s t hst => hst.applyAdditions op isRecall _
  · intro s t hst
    unfold applyWarning
    split
    · exact .ok hst
    · exact .ok ⟨hst.common, hst.items⟩

theorem sight {op : OpCall} (h : SameOutside dead f g) (hop : ∀ space, ∀ x ∈ op.inputs space, x ∉ dead space) :
    op.sight g = op.sight f := by
  unfold OpCall.sight
  congr 1
  · exact projectRow_congr fun x hx => (h.common x (hop .common x hx)).symm
  · refine (map_projectRow_congr h.items fun x hx => hop .item x hx).symm

theorem returned {contract : Contract} (h : SameOutside dead f g)
    (hdead : ∀ space, ∀ x ∈ contract.outputs space, x ∉ dead space) :
    Apple.returned contract g = Apple.returned contract f := by
  unfold Apple.returned RowFrame.toResult
  congr 1
  · exact projectRow_congr fun x hx => (h.common x (hdead .common x hx)).symm
  · exact (map_projectRow_congr h.items fun x hx => hdead .item x hx).symm

theorem trans {f' : RowFrame} (h : SameOutside dead f' f) (h' : SameOutside dead f g) : SameOutside dead f' g := by
  refine ⟨fun x hx => (h.common x hx).trans (h'.common x hx), List.forall₂_iff_get.mpr ⟨?_, fun i hi hi' x hx => ?_⟩⟩
  · exact h.items.length_eq.trans h'.items.length_eq
  · have hmid : i < f.items.length := h.items.length_eq ▸ hi
    exact (h.items.get hi hmid x hx).trans (h'.items.get hmid hi' x hx)

end SameOutside

/-! ## One turn -/

variable {code : Implementations} {ops : List (String × OpCall)} {f g f' : RowFrame} {i : Nat}

/-- What the turn of an operator that is not skipped comes to. -/
theorem runOp_eq_some {name : String} {op : OpCall} (hop : ops[i]? = some (name, op)) :
    runOp code ops f i = some f' ↔
      if op.skip.any fun field => ((f.common.find? field).getD .null).truthy then f = f'
      else ∃ out, code i (op.sight f) = some out ∧ op.permits out = true ∧
        RowFrame.applyOutput f out name op.recall = .ok f' := by
  unfold runOp
  simp only [hop]
  split
  · exact Option.some_inj
  · rw [Option.bind_eq_bind, Option.bind_eq_some_iff]
    refine exists_congr fun out => and_congr_right fun _ => ?_
    split
    · next hpermits =>
      simp only [hpermits, true_and]
      cases RowFrame.applyOutput f out name op.recall with
      | ok s => simp
      | fail e s => simp
    · next hpermits => simp [hpermits]

/-- An operator that reads no dead field does the same on both frames. -/
theorem SameOutside.turn (h : SameOutside dead f g)
    (hop : ∀ name op, ops[i]? = some (name, op) → op.GuardsRead ∧ ∀ space, ∀ x ∈ op.inputs space, x ∉ dead space)
    (hrun : runOp code ops f i = some f') : ∃ g', runOp code ops g i = some g' ∧ SameOutside dead f' g' := by
  cases hget : ops[i]? with
  | none =>
    unfold runOp at hrun ⊢
    rw [hget] at hrun ⊢
    cases hrun
    exact ⟨g, rfl, h⟩
  | some e =>
    obtain ⟨name, op⟩ := e
    obtain ⟨hguards, hinputs⟩ := hop name op hget
    have hskip : (op.skip.any fun field => ((g.common.find? field).getD .null).truthy) =
        op.skip.any fun field => ((f.common.find? field).getD .null).truthy := by
      rw [Bool.eq_iff_iff, List.any_eq_true, List.any_eq_true]
      refine exists_congr fun x => and_congr_right fun hx => ?_
      rw [h.common x (hinputs .common x (List.mem_append_left _ (hguards hx)))]
    simp only [runOp_eq_some hget, hskip, h.sight hinputs] at hrun ⊢
    split at hrun
    · next htrue =>
      simp only [htrue, if_true]
      exact ⟨g, rfl, hrun ▸ h⟩
    · next hfalse =>
      simp only [hfalse, Bool.false_eq_true, if_false]
      obtain ⟨out, hcode, hpermits, happly⟩ := hrun
      have hrel := h.applyOutput out name op.recall
      rw [happly] at hrel
      generalize hp : RowFrame.applyOutput g out name op.recall = p at hrel
      rcases hrel with hg | hg
      exact ⟨_, ⟨out, hcode, hpermits, hp⟩, hg⟩

theorem find?_insert_dead {fields : List String} {k : String} {r s : Row} (v : Variant) (hk : k ∈ fields)
    (h : ∀ x ∉ fields, r.find? x = s.find? x) : ∀ x ∉ fields, (r.insert k v).find? x = s.find? x := by
  intro x hx
  have hne : x ≠ k := by
    rintro rfl
    exact hx hk
  rw [SortedMap.find?_insert_of_ne _ _ hne, h x hx]

theorem forall₂_modify_left {α β : Type} {R : α → β → Prop} {xs : List α} {ys : List β} (h : List.Forall₂ R xs ys)
    {f : α → α} (hf : ∀ a b, R a b → R (f a) b) (i : Nat) : List.Forall₂ R (xs.modify i f) ys := by
  induction h generalizing i with
  | nil => cases i <;> exact .nil
  | cons hab hrest ih =>
    cases i with
    | zero => exact .cons (hf _ _ hab) hrest
    | succ i => exact .cons hab (ih i)

theorem forall₂_zipWith_left {α β γ : Type} {R : α → β → Prop} {xs : List α} {ys : List β} (h : List.Forall₂ R xs ys)
    {f : α → γ → α} (hf : ∀ a b c, R a b → R (f a c) b) {cs : List γ} (hlen : cs.length = xs.length) :
    List.Forall₂ R (List.zipWith f xs cs) ys := by
  induction h generalizing cs with
  | nil => exact .nil
  | cons hab hrest ih =>
    cases cs with
    | nil => cases hlen
    | cons c cs => exact .cons (hf _ _ c hab) (ih (Nat.succ.inj hlen))

/-- Writes to dead fields, and the items stay where they are. -/
theorem SameOutside.applyOutput_dead {out : OperatorOutput} {op : String} {isRecall : Bool}
    (hcommon : ∀ w ∈ out.commonWrites.entries, w.1 ∈ dead .common) (hitem : ∀ w ∈ out.itemWrites, w.field ∈ dead .item)
    (hcolumn : ∀ w ∈ out.columnWrites, w.field ∈ dead .item) (hadded : out.addedItems = [])
    (hremoved : out.removedItems.keys = []) (horder : out.itemOrder = none) :
    SameOutside dead (RowFrame.applyOutput f out op isRecall).state f := by
  unfold RowFrame.applyOutput applyOutputWith
  rw [hadded, hremoved, horder]
  have hcommons : Outcome.Keeps (fun s => SameOutside dead s f)
      (Pineapple.applyCommonWrites (σ := List Row) op out.commonWrites.entries) := by
    refine Outcome.Keeps.forEach _ fun w hw => Outcome.Keeps.checked _ fun _ s hs => ?_
    exact ⟨find?_insert_dead w.2 (hcommon w hw) hs.common, hs.items⟩
  have hitems : Outcome.Keeps (fun s => SameOutside dead s f)
      (Pineapple.applyItemWrites RowFrame.store op out.itemWrites) := by
    refine Outcome.Keeps.forEach _ fun w hw s hs => ?_
    refine Outcome.Keeps.checked (P := fun s => SameOutside dead s f) _ (fun _ s hs => ?_) s hs
    exact ⟨hs.common, forall₂_modify_left hs.items (fun r t => find?_insert_dead w.value (hitem w hw)) _⟩
  have hcolumns : Outcome.Keeps (fun s => SameOutside dead s f)
      (Pineapple.applyColumnWrites RowFrame.store op out.columnWrites) := by
    intro s hs
    refine Outcome.Keeps.forEach (P := fun s => SameOutside dead s f) _ (fun w hw s hs => ?_) s hs
    cases herror : columnWriteError op (RowFrame.store.rowCount s.items) w with
    | some e => exact hs
    | none =>
      have hlen : w.vals.length = s.items.length := (length_of_columnWriteError herror).1
      exact ⟨hs.common, forall₂_zipWith_left hs.items
        (fun r t d => find?_insert_dead (.number d) (hcolumn w hw)) hlen⟩
  refine Outcome.Keeps.andThen (P := fun s => SameOutside dead s f) (fun s hs => ?_) ?_
  · cases out.warning <;> exact ⟨hs.common, hs.items⟩
  refine Outcome.Keeps.andThen (P := fun s => SameOutside dead s f) (fun _ hs => hs) ?_
  refine Outcome.Keeps.andThen (P := fun s => SameOutside dead s f) (fun _ hs => hs) ?_
  refine Outcome.Keeps.andThen (P := fun s => SameOutside dead s f) (fun _ hs => hs) ?_
  exact hcolumns.andThen (hitems.andThen (hcommons f (.refl f)))

/-- An operator that writes only dead fields and leaves the items where they are. -/
theorem SameOutside.of_dead {name : String} {op : OpCall} (hop : ops[i]? = some (name, op))
    (hrecall : op.recall = false) (hadds : op.additiveWritesRowSet = false) (hmutates : op.mutatesRowSet = false)
    (houtputs : ∀ space, ∀ x ∈ op.outputs space, x ∈ dead space) (hrun : runOp code ops f i = some f') :
    SameOutside dead f' f := by
  rw [runOp_eq_some hop] at hrun
  split at hrun
  · exact hrun ▸ SameOutside.refl f
  · obtain ⟨out, -, hpermits, happly⟩ := hrun
    simp only [OpCall.permits, hrecall, hadds, hmutates, Bool.and_eq_true, Bool.or_false, List.all_eq_true,
      decide_eq_true_eq] at hpermits
    obtain ⟨⟨⟨hcommon, hitem, hcolumn⟩, hadded⟩, hremoved, horder⟩ := hpermits
    have hsame : SameOutside dead (RowFrame.applyOutput f out name op.recall).state f := SameOutside.applyOutput_dead
      (fun w hw => houtputs .common _ (hcommon w.1 (List.mem_map_of_mem hw)))
      (fun w hw => houtputs .item _ (hitem w hw)) (fun w hw => houtputs .item _ (hcolumn w hw)) hadded hremoved horder
    rwa [happly] at hsame

end

/-! ## Removing an operator -/

/-- The operator is reported. -/
def Reported (ops : List (String × OpCall)) (contract : Contract) (op : OpCall) : Prop :=
  op.mayBeDead = true ∧ op.produces (needed ops contract) = false

/-- The operator leaves the items where they are. -/
def OpCall.KeepsItems (op : OpCall) : Prop := op.additiveWritesRowSet = false ∧ op.mutatesRowSet = false

section
variable {ops : List (String × OpCall)} {contract : Contract} {name : String} {op : OpCall} {k : Nat}

theorem Reported.not_needed (h : Reported ops contract op) : ∀ space, ∀ x ∈ op.outputs space,
    x ∉ needed ops contract space := by
  have hproduces := h.2
  simp only [OpCall.produces, Bool.or_eq_false_iff, List.any_eq_false, decide_eq_true_eq] at hproduces
  intro space
  cases space with
  | common => exact hproduces.1
  | item => exact hproduces.2

/-- A reported operator that leaves the items where they are can be taken away. -/
theorem removal_safe (hguards : ∀ e ∈ ops, e.2.GuardsRead) (hop : ops[k]? = some (name, op))
    (hreported : Reported ops contract op) (hkeeps : op.KeepsItems) : RemovalSafe ops contract k := by
  intro code order f f' _ hrun
  have hrecall : op.recall = false := by
    have := hreported.1
    simp only [OpCall.mayBeDead, Bool.and_eq_true, Bool.not_eq_true'] at this
    exact this.1.2
  have hneeded := hreported.not_needed
  have hruns : ∀ (order : List Nat) (f f' g : RowFrame), SameOutside op.outputs f g →
      runOps code ops order f = some f' →
      ∃ g', runOps code ops (order.filter (· ≠ k)) g = some g' ∧ SameOutside op.outputs f' g' := by
    intro order
    induction order with
    | nil =>
      intro f f' g h hrun
      cases hrun
      exact ⟨g, rfl, h⟩
    | cons i order ih =>
      intro f f' g h hrun
      rw [runOps, List.foldlM_cons, Option.bind_eq_bind, Option.bind_eq_some_iff] at hrun
      obtain ⟨f₁, hturn, hrun⟩ := hrun
      by_cases hik : i = k
      · subst hik
        rw [List.filter_cons_of_neg (by simp)]
        have hdead := SameOutside.of_dead hop hrecall hkeeps.1 hkeeps.2 (fun _ _ => id) hturn
        exact ih f₁ f' g (hdead.trans h) hrun
      · rw [List.filter_cons_of_pos (by simpa using hik)]
        have hlive : ∀ name' op', ops[i]? = some (name', op') →
            op'.GuardsRead ∧ ∀ space, ∀ x ∈ op'.inputs space, x ∉ op.outputs space := by
          intro name' op' hget
          have hmem := List.mem_of_getElem? hget
          refine ⟨hguards _ hmem, fun space x hx hout => hneeded space x hout ?_⟩
          exact List.mem_append_right _ (List.mem_flatMap.mpr ⟨_, hmem, hx⟩)
        obtain ⟨g₁, hturn', hsame⟩ := h.turn hlive hturn
        obtain ⟨g', hrun', hsame'⟩ := ih f₁ f' g₁ hsame hrun
        refine ⟨g', ?_, hsame'⟩
        rw [runOps, List.foldlM_cons, hturn']
        exact hrun'
  obtain ⟨g', hrun', hsame⟩ := hruns order f f' f (.refl f) hrun
  refine ⟨g', hrun', hsame.returned fun space x hx hout => hneeded space x hout ?_⟩
  exact List.mem_append_left _ hx

/-- An operator that only takes away the first item or adds an empty one. -/
def itemChange (op : OpCall) : OperatorOutput :=
  if op.mutatesRowSet then { removedItems := .ofList [(0, ())] } else { addedItems := [∅] }

/-- All other operators do nothing. -/
def onlyAt (k : Nat) (out : OperatorOutput) : Implementations := fun i _ => some (if i = k then out else {})

/-- A request with one empty item. -/
def oneItem : RowFrame where
  common := ∅
  items := [∅]

theorem runOp_nothing {i : Nat} {f : RowFrame} {out : OperatorOutput} (hcommon : f.common = ∅) (hik : i ≠ k) :
    runOp (onlyAt k out) ops f i = some f := by
  unfold runOp
  split
  · rfl
  · have hskip : ∀ skip : List String, (skip.any fun field => ((f.common.find? field).getD .null).truthy) = false := by
      intro skip
      rw [hcommon, List.any_eq_false]
      exact fun _ _ => Bool.false_ne_true
    rw [hskip, if_neg Bool.false_ne_true, onlyAt, if_neg hik]
    rfl

theorem runOps_nothing {order : List Nat} {f : RowFrame} {out : OperatorOutput} (hcommon : f.common = ∅)
    (hk : k ∉ order) : runOps (onlyAt k out) ops order f = some f := by
  induction order with
  | nil => rfl
  | cons i order ih =>
    rw [List.mem_cons, not_or] at hk
    rw [runOps, List.foldlM_cons, runOp_nothing hcommon (Ne.symm hk.1)]
    exact ih hk.2

/-- Without the operator there is one item, with it there are none or two. -/
theorem not_removal_safe (hop : ops[k]? = some (name, op)) (hrecall : op.recall = false)
    (hchanges : ¬ op.KeepsItems) : ¬ RemovalSafe ops contract k := by
  intro hsafe
  have hturn : ∃ f', runOp (onlyAt k (itemChange op)) ops oneItem k = some f' ∧ f'.common = ∅ ∧
      f'.items.length ≠ 1 := by
    have hskip : (op.skip.any fun field => ((oneItem.common.find? field).getD .null).truthy) = false := by
      rw [List.any_eq_false]
      exact fun _ _ => Bool.false_ne_true
    simp only [runOp_eq_some hop, hskip, Bool.false_eq_true, if_false, onlyAt, if_true, Option.some.injEq]
    cases hmutates : op.mutatesRowSet with
    | true =>
      have hchange : itemChange op = { removedItems := .ofList [(0, ())] } := if_pos hmutates
      refine ⟨⟨∅, [], []⟩, ⟨_, rfl, ?_, ?_⟩, rfl, by decide⟩
      · have hkeys : (∅ : Row).keys = [] := rfl
        simp [hchange, OpCall.permits, hmutates, hkeys]
      · rw [hchange]
        rfl
    | false =>
      have hadds : op.additiveWritesRowSet = true := by
        by_contra hadds
        exact hchanges ⟨Bool.eq_false_iff.mpr hadds, hmutates⟩
      have hchange : itemChange op = { addedItems := [∅] } := if_neg (by simp [hmutates])
      refine ⟨⟨∅, [∅, ∅], []⟩, ⟨_, rfl, ?_, ?_⟩, rfl, by decide⟩
      · have hkeys : (∅ : Row).keys = [] := rfl
        have hkeys' : (∅ : SortedMap Int Unit).keys = [] := rfl
        simp [hchange, OpCall.permits, hadds, hkeys, hkeys']
      · rw [hchange, hrecall]
        rfl
  obtain ⟨f', hf', hcommon, hlength⟩ := hturn
  obtain ⟨pre, post, hsplit⟩ := List.append_of_mem (List.mem_range.mpr (List.getElem?_eq_some_iff.mp hop).1)
  have hnodup := List.nodup_range (n := ops.length)
  rw [hsplit, List.nodup_append] at hnodup
  have hpre : k ∉ pre := fun hmem => hnodup.2.2 k hmem k List.mem_cons_self rfl
  have hpost : k ∉ post := (List.nodup_cons.mp hnodup.2.1).1
  have hrun : runOps (onlyAt k (itemChange op)) ops (List.range ops.length) oneItem = some f' := by
    rw [hsplit, runOps, List.foldlM_append]
    have hbefore : runOps (onlyAt k (itemChange op)) ops pre oneItem = some oneItem := runOps_nothing rfl hpre
    rw [runOps] at hbefore
    rw [hbefore]
    show (runOp (onlyAt k (itemChange op)) ops oneItem k >>= fun f =>
      post.foldlM (runOp (onlyAt k (itemChange op)) ops) f) = _
    rw [hf']
    exact runOps_nothing hcommon hpost
  obtain ⟨g', hg', hreturned⟩ := hsafe _ _ _ _ (List.Perm.refl _) hrun
  rw [runOps_nothing rfl (by simp)] at hg'
  obtain rfl := Option.some.inj hg'
  have hitems := congrArg (fun r : Result => r.items.length) hreturned
  simp only [returned, RowFrame.toResult, List.length_map] at hitems
  exact hlength hitems.symm

theorem removal_safe_iff (hguards : ∀ e ∈ ops, e.2.GuardsRead) (hop : ops[k]? = some (name, op))
    (hreported : Reported ops contract op) : RemovalSafe ops contract k ↔ op.KeepsItems := by
  refine ⟨fun hsafe => ?_, removal_safe hguards hop hreported⟩
  by_contra hchanges
  have hmay := hreported.1
  simp only [OpCall.mayBeDead, Bool.and_eq_true, Bool.not_eq_true'] at hmay
  exact not_removal_safe hop hmay.1.2 hchanges hsafe

end

/-! ## What should be reported -/

/-- The fields that are needed after the operator at place `k`: by the contract or by a later operator. -/
def neededAfter (ops : List (String × OpCall)) (contract : Contract) (k : Nat) (space : Space) : List String :=
  contract.outputs space ++ (ops.drop (k + 1)).flatMap fun e => e.2.inputs space

/-- The operators whose output is neither in the contract nor read later, in the report's form. -/
def deadAfter (ops : List (String × OpCall)) (contract : Contract) : List String :=
  (ops.zipIdx.filter fun p => p.1.2.mayBeDead && !p.1.2.produces (neededAfter ops contract p.2)).map fun p => p.1.1

/-- An operator whose output is needed at all has it needed after its turn. -/
def NeededLater (ops : List (String × OpCall)) (contract : Contract) : Prop :=
  ∀ (k : Nat) name op, ops[k]? = some (name, op) → op.mayBeDead = true →
    op.produces (needed ops contract) = true → op.produces (neededAfter ops contract k) = true

theorem produces_mono {op : OpCall} {fields fields' : Space → List String} (h : ∀ space, fields space ⊆ fields' space)
    (hproduces : op.produces fields = true) : op.produces fields' = true := by
  simp only [OpCall.produces, Bool.or_eq_true, List.any_eq_true, decide_eq_true_eq] at hproduces ⊢
  rcases hproduces with ⟨x, hx, hmem⟩ | ⟨x, hx, hmem⟩
  · exact Or.inl ⟨x, hx, h .common hmem⟩
  · exact Or.inr ⟨x, hx, h .item hmem⟩

theorem neededAfter_subset (ops : List (String × OpCall)) (contract : Contract) (k : Nat) (space : Space) :
    neededAfter ops contract k space ⊆ needed ops contract space := by
  intro x hx
  rcases List.mem_append.mp hx with hx | hx
  · exact List.mem_append_left _ hx
  · obtain ⟨e, he, hx⟩ := List.mem_flatMap.mp hx
    exact List.mem_append_right _ (List.mem_flatMap.mpr ⟨e, List.mem_of_mem_drop he, hx⟩)

theorem detectDeadCode_eq_iff (ops : List (String × OpCall)) (contract : Contract) :
    detectDeadCode ops contract = deadAfter ops contract ↔ NeededLater ops contract := by
  have hzip : ∀ p : String × OpCall → Bool,
      (ops.filter p).map Prod.fst = (ops.zipIdx.filter fun q => p q.1).map fun q => q.1.1 := by
    intro p
    conv_lhs => rw [← List.zipIdx_map_fst 0 ops, List.filter_map, List.map_map]
    rfl
  have hsub : (ops.zipIdx.filter fun q => q.1.2.mayBeDead && !q.1.2.produces (needed ops contract)).Sublist
      (ops.zipIdx.filter fun q => q.1.2.mayBeDead && !q.1.2.produces (neededAfter ops contract q.2)) := by
    refine List.monotone_filter_right _ fun q hq => ?_
    simp only [Bool.and_eq_true, Bool.not_eq_true'] at hq ⊢
    refine ⟨hq.1, ?_⟩
    by_contra hproduces
    have := produces_mono (neededAfter_subset ops contract q.2) (Bool.not_eq_false _ ▸ hproduces)
    rw [hq.2] at this
    cases this
  unfold detectDeadCode deadAfter
  rw [hzip]
  constructor
  · intro heq k name op hget hmay hneeded
    have hlists := hsub.eq_of_length (by simpa using congrArg List.length heq)
    by_contra hproduces
    rw [Bool.not_eq_true] at hproduces
    have hmem : ((name, op), k) ∈ ops.zipIdx := List.mk_mem_zipIdx_iff_getElem?.mpr hget
    have hlate : ((name, op), k) ∈
        ops.zipIdx.filter fun q => q.1.2.mayBeDead && !q.1.2.produces (neededAfter ops contract q.2) :=
      List.mem_filter.mpr ⟨hmem, by simp [hmay, hproduces]⟩
    rw [← hlists] at hlate
    simp [hneeded] at hlate
  · intro h
    congr 1
    refine List.filter_congr fun q hq => ?_
    have hget : ops[q.2]? = some (q.1.1, q.1.2) := List.mk_mem_zipIdx_iff_getElem?.mp hq
    cases hmay : q.1.2.mayBeDead with
    | false => rfl
    | true =>
      have hiff : q.1.2.produces (needed ops contract) = q.1.2.produces (neededAfter ops contract q.2) := by
        rw [Bool.eq_iff_iff]
        exact ⟨h q.2 _ _ hget hmay, produces_mono (neededAfter_subset ops contract q.2)⟩
      rw [hiff]

/-- The operators of a flow declare what guards them. -/
theorem Compiled.guardsRead {named : List (String × OpCall)} {groups : List (List String)}
    (h : Compiled (named.map Prod.snd) groups) : ∀ e ∈ named, e.2.GuardsRead := fun e he =>
  (h.good e.2 (List.mem_map_of_mem he)).read

/-- An operator that reads `x` and writes it anew. -/
def selfFed : List (String × OpCall) :=
  [("a", { typeName := "transform_by_lua", name := "a", commonInput := ["x"], commonOutput := ["x"] })]

/-- A filter that also declares an output. -/
def countingFilter : List (String × OpCall) :=
  [("f", { typeName := "filter_truncate", name := "f", commonOutput := ["kept"], mutatesRowSet := true })]

end Pineapple.Apple
