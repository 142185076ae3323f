import Mathlib.Data.List.Dedup
import Pineapple.AppleBuilt

/-! # What holds of the operators of a flow

The renaming of a sub-flow's control fields is one function on its fields (`View`), and the guards that a sub-flow
inherits are decided outside it. So every guard of every operator is decided by an operator that has no further guards
(`traverse_covered`), and the branches of every exclusion group come one after the other. -/

namespace Pineapple.Apple

/-! ## One renaming -/

/-- Fields as they are declared have no colon in them; those of sub-flows do. -/
def Raw (f : String) : Prop := ':' ∉ f.toList

theorem colon_mem_pathPrefix (path : String) : ':' ∈ (pathPrefix path).toList := by
  simp [pathPrefix]

theorem OpCall.IsControl.raw {c : OpCall} {kind : BranchKind} {n : Nat} (h : c.IsControl kind n) {f : String}
    (hf : c.commonOutput = [f]) : Raw f := by
  rw [h.output] at hf
  exact (List.cons.inj hf).1 ▸ colon_not_mem_field kind n

theorem OpCall.IsControl.controls {c : OpCall} {kind : BranchKind} {n : Nat} (h : c.IsControl kind n) :
    c.Controls (kind.fieldText ++ toString n) := ⟨h.control, h.output⟩

theorem OpCall.IsControl.name_ne {c : OpCall} {kind : BranchKind} {n : Nat} (h : c.IsControl kind n) : c.name ≠ "" := by
  intro heq
  have hl := congrArg String.toList (h.name.symm.trans heq)
  cases kind <;> simp [BranchKind.text] at hl

/-- The script of an operator after a renaming. -/
def ControlScript.rename (old new : String) (s : ControlScript) : ControlScript where
  prior := s.prior.map (LuaName.rename old new)
  condition := s.condition.map (renameText old new)

theorem script?_renameField (old new : String) (op : OpCall) :
    (op.renameField old new).script? = op.script?.map (ControlScript.rename old new) := by
  have hlookup : ∀ params : List (String × Param),
      (params.map fun e => if e.1 = "lua_script" then (e.1, e.2.rename old new) else e).lookup "lua_script" =
        (params.lookup "lua_script").map (Param.rename old new) := by
    intro params
    induction params with
    | nil => rfl
    | cons e params ih =>
      obtain ⟨k, p⟩ := e
      by_cases hk : k = "lua_script"
      · subst hk
        simp
      · have hne : ("lua_script" == k) = false := beq_eq_false_iff_ne.mpr (Ne.symm hk)
        simp only [List.map_cons, hk, if_false, List.lookup_cons, hne, ih]
  have hparams : (op.renameField old new).params =
      op.params.map fun e => if e.1 = "lua_script" then (e.1, e.2.rename old new) else e := rfl
  unfold OpCall.script?
  rw [hparams, hlookup]
  cases op.params.lookup "lua_script" with
  | none => rfl
  | some p =>
    cases p with
    | script s => rfl
    | value v => cases v <;> rfl

/-- The operator `o'` is `o` with its fields renamed. -/
structure View (field : String → String) (o o' : OpCall) : Prop where
  control : o'.forBranchControl = o.forBranchControl
  skip : o'.skip = o.skip.map field
  output : ∀ f, o.Controls f → o'.commonOutput = [field f]
  prior : o.forBranchControl = true → ∀ f, Raw f → f ∈ o.priorFields → field f ∈ o'.priorFields
  scripted : o.forBranchControl = true → ∃ s, o'.script? = some s ∧ ∀ g, .global g ∈ s.prior → ¬ Raw g
  read : o'.GuardsRead

namespace View
variable {field : String → String} {o o' : OpCall}

theorem controls (h : View field o o') {f : String} (hf : o.Controls f) : o'.Controls (field f) :=
  ⟨h.control.trans hf.1, h.output f hf⟩

theorem refl (h : o.forBranchControl = true → ∃ s, o.script? = some s ∧ ∀ g, .global g ∉ s.prior)
    (hread : o.GuardsRead) : View id o o := by
  refine ⟨rfl, by simp, fun f hf => hf.2, fun _ f _ hf => hf, fun hc => ?_, hread⟩
  obtain ⟨s, hs, hbare⟩ := h hc
  exact ⟨s, hs, fun g hg => absurd hg (hbare g)⟩

/-- The name is no part of the view. -/
theorem setName (h : View field o o') (name : String) : View field o { o' with name } :=
  ⟨h.control, h.skip, h.output, h.prior, h.scripted, h.read⟩

/-- A field that was not renamed before gets its new name. -/
theorem rename (h : View field o o') {old new : String} (hold : Raw old) (hnew : ¬ Raw new)
    (hfield : ∀ f, Raw f → (field f = old ↔ f = old)) (hskip : ∀ f ∈ o.skip, Raw f)
    (hraw : ∀ f, o.Controls f → Raw f) :
    View (fun f => if f = old then new else field f) o (o'.renameField old new) := by
  have heq : ∀ f, Raw f → renamed old new (field f) = if f = old then new else field f := by
    intro f hf
    unfold renamed
    by_cases hfo : f = old
    · rw [if_pos ((hfield f hf).mpr hfo), if_pos hfo]
    · rw [if_neg fun h => hfo ((hfield f hf).mp h), if_neg hfo]
  refine ⟨h.control, ?_, fun f hf => ?_, fun hc f hf hmem => ?_, fun hc => ?_, ?_⟩
  · show o'.skip.map _ = _
    rw [h.skip, List.map_map]
    exact List.map_congr_left fun f hf => heq f (hskip f hf)
  · show o'.commonOutput.map _ = _
    rw [h.output f hf, List.map_singleton, heq f (hraw f hf)]
  · have hmem' := h.prior hc f hf hmem
    obtain ⟨s, hs, hglobal⟩ := h.scripted hc
    simp only [OpCall.priorFields, script?_renameField, hs, Option.map_some, Option.getD_some, ControlScript.rename,
      List.mem_map] at hmem' ⊢
    obtain ⟨n, hn, hnf⟩ := hmem'
    refine ⟨n.rename old new, ⟨n, hn, rfl⟩, ?_⟩
    rw [← heq f hf, ← hnf]
    cases n with
    | bare g => by_cases hg : g = old <;> simp [LuaName.rename, LuaName.field, renamed, hg]
    | global g =>
      have hne : g ≠ old := fun h => hglobal g hn (h ▸ hold)
      simp [LuaName.rename, LuaName.field, renamed, hne]
  · obtain ⟨s, hs, hglobal⟩ := h.scripted hc
    refine ⟨s.rename old new, by rw [script?_renameField, hs]; rfl, fun g hg => ?_⟩
    obtain ⟨n, hn, hng⟩ := List.mem_map.mp hg
    cases n with
    | bare f =>
      simp only [LuaName.rename] at hng
      split_ifs at hng
      exact LuaName.global.inj hng ▸ hnew
    | global f =>
      obtain rfl := LuaName.global.inj hng
      exact hglobal f hn
  · show o'.skip.map _ ⊆ o'.commonInput.map _ ++ o'.commonInputSkip.map _
    rw [← List.map_append]
    exact List.map_subset _ h.read

end View

/-! ## The renaming of a node -/

/-- A field is decided at one place. -/
theorem index_eq_of_distinct {ops : List OpCall}
    (h : ops.Pairwise fun a b =>
      a.forBranchControl = true → b.forBranchControl = true → a.commonOutput ≠ b.commonOutput)
    {i j : Nat} {a b : OpCall} {f : String} (hi : ops[i]? = some a) (hj : ops[j]? = some b) (ha : a.Controls f)
    (hb : b.Controls f) : i = j := by
  obtain ⟨hi', rfl⟩ := List.getElem?_eq_some_iff.mp hi
  obtain ⟨hj', rfl⟩ := List.getElem?_eq_some_iff.mp hj
  have hpair := List.pairwise_iff_getElem.mp h
  rcases Nat.lt_trichotomy i j with hlt | heq | hlt
  · exact absurd (ha.2.trans hb.2.symm) (hpair i j hi' hj' hlt ha.1 hb.1)
  · exact heq
  · exact absurd (hb.2.trans ha.2.symm) (hpair j i hj' hi' hlt hb.1 ha.1)

/-- What the renaming is given: operators whose guards they decide themselves. -/
structure Local (ops : List OpCall) : Prop where
  covered : ∀ op ∈ ops, Covered ops op.skip
  named : ∀ c ∈ ops, c.forBranchControl = true → ∃ kind n, c.IsControl kind n
  distinct : ops.Pairwise fun a b =>
    a.forBranchControl = true → b.forBranchControl = true → a.commonOutput ≠ b.commonOutput
  read : ∀ op ∈ ops, op.GuardsRead

namespace Local
variable {ops : List OpCall}

theorem raw_controls (h : Local ops) {c : OpCall} (hc : c ∈ ops) {f : String} (hf : c.Controls f) : Raw f := by
  obtain ⟨kind, n, hnamed⟩ := h.named c hc hf.1
  exact hnamed.raw hf.2

theorem raw_of_covered (h : Local ops) {fields : List String} (hcover : Covered ops fields) : ∀ f ∈ fields, Raw f := by
  intro f hf
  obtain ⟨c, hc, hctrl, -⟩ := hcover f hf
  exact h.raw_controls hc hctrl

end Local

theorem not_raw_prefixed (path name : String) : ¬ Raw ("_" ++ (pathPrefix path ++ name)) := by
  rw [Raw, not_not, String.toList_append, String.toList_append]
  exact List.mem_append_right _ (List.mem_append_left _ (colon_mem_pathPrefix path))

/-- The renaming after the control operator at `k`, called `name`, got a new name for its field. -/
def Renaming.put (st : Renaming) (path : String) (k : Nat) (field name : String) : Renaming where
  ops := (st.ops.map (OpCall.renameField field ("_" ++ (pathPrefix path ++ name)))).modify k fun op =>
    { op with name := pathPrefix path ++ op.name }
  renames := st.renames.insert field ("_" ++ (pathPrefix path ++ name))

namespace Renaming
variable {st : Renaming} {path : String} {k : Nat} {o : OpCall}

theorem step_control {f : String} (ho : st.ops[k]? = some o) (hctrl : o.forBranchControl = true) (hname : o.name ≠ "")
    (hout : o.commonOutput = [f]) (hne : f ≠ "_" ++ (pathPrefix path ++ o.name)) :
    st.step path k = st.put path k f o.name := by
  have hguard : (o.forBranchControl && o.name != "") = true := by simp [hctrl, hname]
  unfold step
  simp only [ho, hguard, if_true, hout, List.head?_cons, if_neg hne]
  rfl

theorem step_other (ho : st.ops[k]? = some o) (hctrl : o.forBranchControl = false) : st.step path k = st := by
  have hguard : (o.forBranchControl && o.name != "") = false := by simp [hctrl]
  unfold step
  simp only [ho, hguard, Bool.false_eq_true, if_false]

theorem field_put (st : Renaming) (path : String) (k : Nat) (f name : String) :
    (st.put path k f name).field = fun x => if x = f then "_" ++ (pathPrefix path ++ name) else st.field x := by
  funext x
  unfold field put
  rw [SortedMap.find?_insert]
  split_ifs <;> rfl

theorem getElem?_put {f name : String} {i : Nat} (h : (st.put path k f name).ops[i]? = some o) :
    ∃ b, st.ops[i]? = some b ∧
      o = { b.renameField f ("_" ++ (pathPrefix path ++ name)) with
        name := if k = i then pathPrefix path ++ b.name else b.name } := by
  rw [put, List.getElem?_modify, List.getElem?_map] at h
  cases hb : st.ops[i]? with
  | none => simp [hb] at h
  | some b =>
    rw [hb] at h
    refine ⟨b, rfl, ?_⟩
    by_cases hk : k = i
    · simp only [hk, if_true] at h ⊢
      exact (Option.some.inj h).symm
    · simp only [hk, if_false] at h ⊢
      exact (Option.some.inj h).symm

end Renaming

/-- After the control operators before position `k` got their new names. -/
structure RenamedTo (path : String) (ops : List OpCall) (k : Nat) (st : Renaming) : Prop where
  length : st.ops.length = ops.length
  view : ∀ (i : Nat) o o', ops[i]? = some o → st.ops[i]? = some o' → View st.field o o' ∧
    o'.name = if i < k ∧ o.forBranchControl = true then pathPrefix path ++ o.name else o.name
  domain : ∀ f g, st.renames.find? f = some g → ¬ Raw g ∧ ∃ (i : Nat) (o : OpCall), i < k ∧ ops[i]? = some o ∧ o.Controls f
  done : ∀ (i : Nat) o f, i < k → ops[i]? = some o → o.Controls f →
    st.renames.find? f = some ("_" ++ (pathPrefix path ++ o.name))

namespace RenamedTo
variable {path : String} {ops : List OpCall} {k : Nat} {st : Renaming}

theorem init (h : Local ops) : RenamedTo path ops 0 { ops } := by
  refine ⟨rfl, fun i o o' ho ho' => ?_, by simp, by simp⟩
  obtain rfl : o = o' := Option.some.inj (ho.symm.trans ho')
  have hfield : Renaming.field { ops } = id := funext fun f => by simp [Renaming.field]
  refine ⟨hfield ▸ View.refl (fun hc => ?_) (h.read o (List.mem_of_getElem? ho)), by simp⟩
  obtain ⟨kind, n, hnamed⟩ := h.named o (List.mem_of_getElem? ho) hc
  exact hnamed.scripted

/-- A name that is not renamed yet is its own. -/
theorem field_eq_iff (hst : RenamedTo path ops k st) {f x : String} (hf : Raw f) (hnone : st.renames.find? f = none) :
    st.field x = f ↔ x = f := by
  refine ⟨fun heq => ?_, fun heq => by rw [heq, Renaming.field, hnone]; rfl⟩
  cases hfind : st.renames.find? x with
  | none => rwa [Renaming.field, hfind] at heq
  | some g =>
    rw [Renaming.field, hfind, Option.getD_some] at heq
    exact absurd (heq.symm ▸ hf) (hst.domain x g hfind).1

theorem put (h : Local ops) (hst : RenamedTo path ops k st) {o : OpCall} {f : String} (ho : ops[k]? = some o)
    (hcontrols : o.Controls f) (hnone : st.renames.find? f = none) :
    RenamedTo path ops (k + 1) (st.put path k f o.name) := by
  have hraw := h.raw_controls (List.mem_of_getElem? ho) hcontrols
  have hnew := not_raw_prefixed path o.name
  refine ⟨by simp [Renaming.put, hst.length], fun i a a' ha ha' => ?_, fun x g hg => ?_, fun i a x hi ha hx => ?_⟩
  · obtain ⟨b, hb, rfl⟩ := Renaming.getElem?_put ha'
    obtain ⟨hv, hn⟩ := hst.view i a b ha hb
    have hv' := hv.rename hraw hnew (fun x _ => hst.field_eq_iff hraw hnone)
      (h.raw_of_covered (h.covered a (List.mem_of_getElem? ha))) fun x hx => h.raw_controls (List.mem_of_getElem? ha) hx
    rw [← Renaming.field_put st path k f o.name] at hv'
    refine ⟨hv'.setName _, ?_⟩
    by_cases hik : k = i
    · subst hik
      obtain rfl : o = a := Option.some.inj (ho.symm.trans ha)
      rw [if_neg (by simp)] at hn
      rw [if_pos rfl, if_pos ⟨Nat.lt_succ_self k, hcontrols.1⟩, hn]
    · have hlt : i < k + 1 ↔ i < k := by omega
      rw [if_neg hik, hn]
      simp only [hlt]
  · rw [Renaming.put, SortedMap.find?_insert] at hg
    split at hg
    · next heq =>
      cases hg
      exact ⟨hnew, k, o, Nat.lt_succ_self k, ho, heq ▸ hcontrols⟩
    · obtain ⟨hgraw, i, a, hi, hrest⟩ := hst.domain x g hg
      exact ⟨hgraw, i, a, by omega, hrest⟩
  · rw [Renaming.put, SortedMap.find?_insert]
    by_cases hxf : x = f
    · subst hxf
      obtain rfl := index_eq_of_distinct h.distinct ha ho hx hcontrols
      obtain rfl : o = a := Option.some.inj (ho.symm.trans ha)
      rw [if_pos rfl]
    · rw [if_neg hxf]
      refine hst.done i a x ?_ ha hx
      by_contra hik
      obtain rfl : i = k := by omega
      obtain rfl : o = a := Option.some.inj (ho.symm.trans ha)
      exact hxf (List.cons.inj (hx.2.symm.trans hcontrols.2)).1

/-- An operator that controls nothing is passed over. -/
theorem pass (hst : RenamedTo path ops k st) {o : OpCall} (ho : ops[k]? = some o) (hctrl : o.forBranchControl = false) :
    RenamedTo path ops (k + 1) st := by
  have hlater : ∀ (i : Nat) (a : OpCall), ops[i]? = some a → a.forBranchControl = true → (i < k + 1 ↔ i < k) := by
    intro i a ha hactrl
    have hik : i ≠ k := by
      rintro rfl
      obtain rfl : o = a := Option.some.inj (ho.symm.trans ha)
      rw [hctrl] at hactrl
      exact Bool.false_ne_true hactrl
    omega
  refine ⟨hst.length, fun i a a' ha ha' => ⟨(hst.view i a a' ha ha').1, ?_⟩, fun x g hg => ?_,
    fun i a x hi ha hx => hst.done i a x ((hlater i a ha hx.1).mp hi) ha hx⟩
  · rw [(hst.view i a a' ha ha').2]
    by_cases hactrl : a.forBranchControl = true
    · simp only [hlater i a ha hactrl]
    · rw [if_neg fun h => hactrl h.2, if_neg fun h => hactrl h.2]
  · obtain ⟨hgraw, i, a, hi, hrest⟩ := hst.domain x g hg
    exact ⟨hgraw, i, a, by omega, hrest⟩

theorem step (h : Local ops) (hst : RenamedTo path ops k st) (hk : k < ops.length) :
    RenamedTo path ops (k + 1) (st.step path k) := by
  have ho : ops[k]? = some ops[k] := List.getElem?_eq_getElem hk
  obtain ⟨o', ho'⟩ : ∃ o', st.ops[k]? = some o' := ⟨_, List.getElem?_eq_getElem (hst.length ▸ hk)⟩
  obtain ⟨hview, hname⟩ := hst.view k _ o' ho ho'
  rw [if_neg (by simp)] at hname
  cases hctrl : ops[k].forBranchControl with
  | false =>
    rw [Renaming.step_other ho' (hview.control.trans hctrl)]
    exact hst.pass ho hctrl
  | true =>
    obtain ⟨kind, n, hnamed⟩ := h.named _ (List.mem_of_getElem? ho) hctrl
    have hcontrols := hnamed.controls
    have hnone : st.renames.find? (kind.fieldText ++ toString n) = none := by
      rw [Option.eq_none_iff_forall_ne_some]
      intro g hg
      obtain ⟨-, i, a, hi, ha, hactrl⟩ := hst.domain _ g hg
      have := index_eq_of_distinct h.distinct ha ho hactrl hcontrols
      omega
    have hout : o'.commonOutput = [kind.fieldText ++ toString n] := by
      rw [hview.output _ hcontrols, Renaming.field, hnone]
      rfl
    have hraw := h.raw_controls (List.mem_of_getElem? ho) hcontrols
    rw [Renaming.step_control ho' (hview.control.trans hctrl) (hname ▸ hnamed.name_ne) hout
      (fun heq => not_raw_prefixed path o'.name (heq ▸ hraw)), hname]
    exact hst.put h ho hcontrols hnone

theorem run (h : Local ops) : RenamedTo path ops ops.length
    ((List.range ops.length).foldl (Renaming.step path) { ops }) := by
  have hrun : ∀ k ≤ ops.length, RenamedTo path ops k ((List.range k).foldl (Renaming.step path) { ops }) := by
    intro k
    induction k with
    | zero => exact fun _ => .init h
    | succ k ih =>
      intro hk
      rw [List.range_succ, List.foldl_append]
      exact (ih (by omega)).step h (by omega)
  exact hrun _ le_rfl

end RenamedTo

/-! ## The operators of a node -/

/-- How the control operators of a flow are called: in a sub-flow, the name holds the path, and the field the name. -/
def OpCall.Sited (c : OpCall) : Prop :=
  (∃ (kind : BranchKind) (n : Nat), c.name = kind.text ++ "_" ++ toString n ∧
    c.commonOutput = [kind.fieldText ++ toString n]) ∨
  ∃ path text, c.name = pathPrefix path ++ text ∧ c.commonOutput = ["_" ++ c.name]

/-- What the renaming of a node leaves: operators that see their fields through `field`. -/
structure RenamedNode (ops : List OpCall) (r : Renaming) : Prop where
  length : r.ops.length = ops.length
  view : ∀ (i : Nat) o o', ops[i]? = some o → r.ops[i]? = some o' → View r.field o o'
  sited : ∀ o' ∈ r.ops, o'.forBranchControl = true → o'.Sited

theorem renameControlFields_spec {ops : List OpCall} (h : Local ops) (path : String) :
    RenamedNode ops (renameControlFields path ops) := by
  unfold renameControlFields
  split_ifs
  · refine ⟨rfl, fun i o o' ho ho' => ((@RenamedTo.init path _ h).view i o o' ho ho').1, fun o ho hctrl => ?_⟩
    obtain ⟨kind, n, hnamed⟩ := h.named o ho hctrl
    exact Or.inl ⟨kind, n, hnamed.name, hnamed.output⟩
  · have hrun := @RenamedTo.run path _ h
    refine ⟨hrun.length, fun i o o' ho ho' => (hrun.view i o o' ho ho').1, fun o' ho' hctrl => ?_⟩
    obtain ⟨i, hi, ho'⟩ := List.getElem_of_mem ho'
    have ho' := List.getElem?_eq_some_iff.mpr ⟨hi, ho'⟩
    have hi' : i < ops.length := hrun.length ▸ hi
    have ho : ops[i]? = some ops[i] := List.getElem?_eq_getElem hi'
    obtain ⟨hview, hname⟩ := hrun.view i _ o' ho ho'
    rw [hview.control] at hctrl
    obtain ⟨kind, n, hnamed⟩ := h.named _ (List.mem_of_getElem? ho) hctrl
    rw [if_pos ⟨hi', hctrl⟩] at hname
    refine Or.inr ⟨path, _, hname, ?_⟩
    rw [hview.output _ hnamed.controls, Renaming.field, hrun.done i _ _ hi' ho hnamed.controls, hname]
    rfl

section
variable (word : Char → Bool)

theorem local_injectTemplates {node : FlowBase} (h : Built node) :
    Local (node.ops.map (OpCall.injectTemplates word)) := by
  constructor
  · intro op hop f hf
    obtain ⟨op₀, hop₀, rfl⟩ := List.mem_map.mp hop
    obtain ⟨c, hc, hctrl, hskip⟩ := h.ops op₀ hop₀ f hf
    exact ⟨c.injectTemplates word, List.mem_map_of_mem hc, hctrl, hskip⟩
  · intro c hc hctrl
    obtain ⟨c₀, hc₀, rfl⟩ := List.mem_map.mp hc
    obtain ⟨kind, n, hnamed, -⟩ := h.named c₀ hc₀ hctrl
    exact ⟨kind, n, hnamed.control, hnamed.name, hnamed.output, hnamed.scripted⟩
  · rw [List.pairwise_map]
    exact h.distinct
  · intro op hop
    obtain ⟨op₀, hop₀, rfl⟩ := List.mem_map.mp hop
    exact h.read op₀ hop₀

end

theorem Covered.congr {ops : List OpCall} {fields fields' : List String} (h : Covered ops fields)
    (heq : ∀ f, f ∈ fields' ↔ f ∈ fields) : Covered ops fields' := by
  intro f hf
  obtain ⟨c, hc, hctrl, hskip⟩ := h f ((heq f).mp hf)
  exact ⟨c, hc, hctrl, fun g hg => (heq g).mpr (hskip hg)⟩

/-- What the validators rely on. -/
structure Good (all : List OpCall) (op : OpCall) : Prop where
  covered : Covered all op.skip
  sited : op.forBranchControl = true → op.Sited
  scripted : op.forBranchControl = true → ∃ s, op.script? = some s
  read : op.GuardsRead

section
variable {env : Env} {path : String} {inherited : List String} {info : FlowInfo} {children : List Child}
  {all : List OpCall}

theorem length_localOps (h : Built ⟨info, children⟩) :
    (localOps env path inherited children).1.length = (children.filterMap Child.op?).length := by
  have hrenamed := (renameControlFields_spec (local_injectTemplates env.word h) path).length
  rw [List.length_map] at hrenamed
  rw [localOps, List.length_map]
  exact hrenamed

/-- An operator of a node as it is listed: the fields renamed, the inherited guards put to its own. -/
structure Listing (field : String → String) (inherited : List String) (c c' : OpCall) : Prop where
  controls : ∀ f, c.Controls f → c'.Controls (field f)
  skip : ∀ f, f ∈ c'.skip ↔ f ∈ inherited ∨ f ∈ c.skip.map field
  prior : c.forBranchControl = true → ∀ f, Raw f → f ∈ c.priorFields → field f ∈ c'.priorFields
  sited : c'.forBranchControl = true → c'.Sited
  scripted : c'.forBranchControl = true → ∃ s, c'.script? = some s
  read : c'.GuardsRead

theorem listing (h : Built ⟨info, children⟩) {i : Nat} {c c' : OpCall}
    (hc : (children.filterMap Child.op?)[i]? = some c) (hc' : (localOps env path inherited children).1[i]? = some c') :
    Listing (localOps env path inherited children).2.field inherited c c' := by
  have hnode := renameControlFields_spec (local_injectTemplates env.word h) path
  have ho : ((children.filterMap Child.op?).map (OpCall.injectTemplates env.word))[i]? =
      some (c.injectTemplates env.word) := by
    rw [List.getElem?_map, hc]
    rfl
  rw [localOps, List.getElem?_map, Option.map_eq_some_iff] at hc'
  obtain ⟨o, ho', rfl⟩ := hc'
  have hview := hnode.view i _ o ho ho'
  constructor
  · intro f hf
    refine ⟨?_, ?_⟩
    · rw [forBranchControl_applySkipFields]
      exact (hview.controls hf).1
    · rw [commonOutput_applySkipFields]
      exact (hview.controls hf).2
  · intro f
    rw [mem_skip_applySkipFields, or_comm]
    exact or_congr_right (by rw [show ({ o with subflowPath := path } : OpCall).skip = o.skip from rfl, hview.skip]; rfl)
  · intro hctrl f hf hmem
    rw [priorFields_applySkipFields]
    exact hview.prior hctrl f hf hmem
  · intro hctrl
    rw [forBranchControl_applySkipFields] at hctrl
    unfold OpCall.Sited
    rw [name_applySkipFields, commonOutput_applySkipFields]
    exact hnode.sited o (List.mem_of_getElem? ho') hctrl
  · intro hctrl
    rw [forBranchControl_applySkipFields] at hctrl
    obtain ⟨s, hs, -⟩ := hview.scripted (hview.control ▸ hctrl)
    exact ⟨s, by rw [script?_applySkipFields]; exact hs⟩
  · exact @OpCall.GuardsRead.applySkipFields { o with subflowPath := path } hview.read inherited

variable (hbuilt : Built ⟨info, children⟩) (hall : (localOps env path inherited children).1 ⊆ all)
include hbuilt hall

/-- The fields of a node are decided in `all`, after what the node inherits. -/
theorem exists_listing {c : OpCall} (hc : c ∈ children.filterMap Child.op?) :
    ∃ c' ∈ all, Listing (localOps env path inherited children).2.field inherited c c' := by
  obtain ⟨i, hi, hget⟩ := List.getElem_of_mem hc
  have hi' : i < (localOps env path inherited children).1.length := by rwa [length_localOps hbuilt]
  exact ⟨_, hall (List.getElem_mem hi'),
    listing hbuilt (List.getElem?_eq_some_iff.mpr ⟨hi, hget⟩) (List.getElem?_eq_getElem hi')⟩

theorem covered_listed (hinherited : Covered all inherited) {fields : List String}
    (h : Covered (children.filterMap Child.op?) fields) :
    Covered all (inherited ++ fields.map (localOps env path inherited children).2.field) := by
  intro f hf
  rcases List.mem_append.mp hf with hf | hf
  · obtain ⟨c, hc, hctrl, hskip⟩ := hinherited f hf
    exact ⟨c, hc, hctrl, fun g hg => List.mem_append_left _ (hskip hg)⟩
  · obtain ⟨g, hg, rfl⟩ := List.mem_map.mp hf
    obtain ⟨c, hc, hctrl, hskip⟩ := h g hg
    obtain ⟨c', hc', hlisting⟩ := exists_listing hbuilt hall hc
    refine ⟨c', hc', hlisting.controls g hctrl, fun x hx => ?_⟩
    rcases (hlisting.skip x).mp hx with hx | hx
    · exact List.mem_append_left _ hx
    · exact List.mem_append_right _ (List.map_subset _ hskip hx)

theorem branches_listed {fields : List String} (h : Branches (children.filterMap Child.op?) fields) :
    Branches all (fields.map (localOps env path inherited children).2.field) := by
  refine ⟨fun f hf => ?_, ?_⟩
  · obtain ⟨g, hg, rfl⟩ := List.mem_map.mp hf
    obtain ⟨c, hc, hctrl⟩ := h.controlled g hg
    obtain ⟨c', hc', hlisting⟩ := exists_listing hbuilt hall hc
    exact ⟨c', hc', hlisting.controls g hctrl⟩
  · rw [List.pairwise_map]
    refine h.after.imp_of_mem fun {f g} hf _ hfg => ?_
    obtain ⟨c, hc, hctrl, hprior⟩ := hfg
    obtain ⟨c', hc', hlisting⟩ := exists_listing hbuilt hall hc
    obtain ⟨d, hd, hdctrl⟩ := h.controlled f hf
    obtain ⟨kind, n, hnamed, -⟩ := hbuilt.named d hd hdctrl.1
    exact ⟨c', hc', hlisting.controls g hctrl, hlisting.prior hctrl.1 f (hnamed.raw hdctrl.2) hprior⟩

theorem good_listed (hinherited : Covered all inherited) {op : OpCall}
    (hop : op ∈ (localOps env path inherited children).1) : Good all op := by
  obtain ⟨i, hi, rfl⟩ := List.getElem_of_mem hop
  have hi' : i < (children.filterMap Child.op?).length := length_localOps hbuilt ▸ hi
  have hlisting := listing hbuilt (List.getElem?_eq_getElem hi') (List.getElem?_eq_getElem hi)
  refine ⟨?_, hlisting.sited, hlisting.scripted, hlisting.read⟩
  refine (covered_listed hbuilt hall hinherited (hbuilt.ops _ (List.getElem_mem hi'))).congr fun f => ?_
  rw [hlisting.skip, List.mem_append]

/-- The exclusion groups of a node. -/
theorem group_listed {r : Renaming} (hr : r = (localOps env path inherited children).2) {group : List String}
    (hgroup : group ∈ collectExclusionGroups info r) : Branches all group := by
  subst hr
  obtain ⟨block, hblock, rfl⟩ := List.mem_map.mp (List.mem_of_mem_filter hgroup)
  have hbranches := branches_listed hbuilt hall (hbuilt.blocks block (List.mem_append_left _ hblock))
  rw [List.map_map] at hbranches
  have hsub := List.dedup_sublist (block.branches.map fun b =>
    (localOps env path inherited children).2.field b.ctrlField)
  exact ⟨fun f hf => hbranches.controlled f (hsub.subset hf), hbranches.after.sublist hsub⟩

end

/-! ## The traversal -/

mutual

/-- What a sub-flow adds to the operators and groups found so far. -/
theorem traverseChild_spec (env : Env) : ∀ (child : Child) {path : String} {inherited : List String} {r : Renaming}
    {info : FlowInfo} {children : List Child} {ops ops' : List OpCall} {st st' : Traversal} {entry : Entry},
    child = .sf info children → WellBuilt info children →
    traverseChild env path inherited r child ops st = .ok (st', entry, ops') → ops' = ops ∧
    ∃ new groups, st'.allOps = st.allOps ++ new ∧ st'.exclusionGroups = st.exclusionGroups ++ groups ∧
      ∀ all, new ⊆ all → Covered all (inherited ++ info.parentSkips.map r.field) →
        (∀ op ∈ new, Good all op) ∧ ∀ group ∈ groups, Branches all group
  | .op _, _, _, _, _, _, _, _, _, _, _, hchild, _, _ => by cases hchild
  | .sf info children, path, inherited, r, _, _, ops, ops', st, st', entry, hchild, hwell, h => by
    cases hchild
    rw [traverseChild] at h
    simp only at h
    split at h
    · cases h
    · rw [Except.bind_eq_ok] at h
      obtain ⟨⟨st₁, entries⟩, hrun, h⟩ := h
      cases h
      obtain ⟨new, groups, hnew, hgroups, hsub, hgood⟩ := traverseChildren_spec env children
        (fun i cs hmem => hwell.nested hmem) (length_localOps hwell.built) hrun
      refine ⟨rfl, new, groups ++ _, hnew, by rw [← List.append_assoc, ← hgroups]; rfl, fun all hall hcover => ?_⟩
      have hlisted := List.Subset.trans hsub hall
      obtain ⟨hops, hbranches⟩ := hgood all hall fun i cs hmem =>
        covered_listed hwell.built hlisted hcover (hwell.built.subs i cs hmem)
      refine ⟨fun op hop => ?_, fun group hgroup => ?_⟩
      · rcases hops op hop with hop | hop
        · exact good_listed hwell.built hlisted hcover hop
        · exact hop
      · rcases List.mem_append.mp hgroup with hgroup | hgroup
        · exact hbranches group hgroup
        · exact group_listed hwell.built hlisted rfl hgroup

theorem traverseChildren_spec (env : Env) : ∀ (children : List Child) {path : String} {inherited : List String}
    {r : Renaming} {ops : List OpCall} {st st' : Traversal} {entries : List Entry},
    (∀ info cs, .sf info cs ∈ children → WellBuilt info cs) → ops.length = (children.filterMap Child.op?).length →
    traverseChildren env path inherited r children ops st = .ok (st', entries) →
    ∃ new groups, st'.allOps = st.allOps ++ new ∧ st'.exclusionGroups = st.exclusionGroups ++ groups ∧ ops ⊆ new ∧
      ∀ all, new ⊆ all →
        (∀ info cs, .sf info cs ∈ children → Covered all (inherited ++ info.parentSkips.map r.field)) →
        (∀ op ∈ new, op ∈ ops ∨ Good all op) ∧ ∀ group ∈ groups, Branches all group
  | [], path, inherited, r, ops, st, st', entries, _, hlen, h => by
    rw [traverseChildren] at h
    cases h
    obtain rfl := List.eq_nil_of_length_eq_zero hlen
    exact ⟨[], [], by simp, by simp, by simp, by simp⟩
  | child :: children, path, inherited, r, ops, st, st', entries, hwell, hlen, h => by
    rw [traverseChildren, Except.bind_eq_ok] at h
    obtain ⟨⟨st₁, entry, ops₁⟩, hchild, h⟩ := h
    rw [Except.bind_eq_ok] at h
    obtain ⟨⟨st₂, entries₂⟩, hrest, h⟩ := h
    cases h
    have hwell' : ∀ info cs, .sf info cs ∈ children → WellBuilt info cs := fun i cs hmem =>
      hwell i cs (List.mem_cons_of_mem _ hmem)
    cases child with
    | op call =>
      cases ops with
      | nil => cases hlen
      | cons op ops =>
        rw [traverseChild] at hchild
        cases hchild
        obtain ⟨new, groups, hnew, hgroups, hsub, hgood⟩ :=
          traverseChildren_spec env children hwell' (Nat.succ.inj hlen) hrest
        refine ⟨op :: new, groups, by rw [hnew]; simp, hgroups, List.cons_subset_cons op hsub,
          fun all hall hcover => ?_⟩
        obtain ⟨hops, hbranches⟩ := hgood all (fun o ho => hall (List.mem_cons_of_mem _ ho)) fun i cs hmem =>
          hcover i cs (List.mem_cons_of_mem _ hmem)
        refine ⟨fun o ho => ?_, hbranches⟩
        rcases List.mem_cons.mp ho with rfl | ho
        · exact Or.inl (List.mem_cons_self ..)
        · exact (hops o ho).imp_left (List.mem_cons_of_mem _)
    | sf info cs =>
      obtain ⟨rfl, new₁, groups₁, hnew₁, hgroups₁, hgood₁⟩ :=
        traverseChild_spec env (.sf info cs) rfl (hwell info cs (List.mem_cons_self ..)) hchild
      obtain ⟨new₂, groups₂, hnew₂, hgroups₂, hsub, hgood₂⟩ := traverseChildren_spec env children hwell' hlen hrest
      refine ⟨new₁ ++ new₂, groups₁ ++ groups₂, by rw [hnew₂, hnew₁, List.append_assoc],
        by rw [hgroups₂, hgroups₁, List.append_assoc], fun o ho => List.mem_append_right _ (hsub ho),
        fun all hall hcover => ?_⟩
      obtain ⟨hops₁, hbranches₁⟩ := hgood₁ all (fun o ho => hall (List.mem_append_left _ ho))
        (hcover info cs (List.mem_cons_self ..))
      obtain ⟨hops₂, hbranches₂⟩ := hgood₂ all (fun o ho => hall (List.mem_append_right _ ho)) fun i cs' hmem =>
        hcover i cs' (List.mem_cons_of_mem _ hmem)
      refine ⟨fun o ho => ?_, fun group hgroup => ?_⟩
      · rcases List.mem_append.mp ho with ho | ho
        · exact Or.inr (hops₁ o ho)
        · exact hops₂ o ho
      · rcases List.mem_append.mp hgroup with hgroup | hgroup
        · exact hbranches₁ group hgroup
        · exact hbranches₂ group hgroup

end

/-- Every guard of every operator of a flow is decided by an operator of the flow that has no further guards, and so
are the branches of every exclusion group, one after the other. -/
theorem traverse_good (env : Env) {flow : FlowBase} (hwell : WellBuilt flow.info flow.children) {t : Traversal}
    (h : traverse env flow = .ok t) :
    (∀ op ∈ t.allOps, Good t.allOps op) ∧ ∀ group ∈ t.exclusionGroups, Branches t.allOps group := by
  unfold traverse at h
  simp only at h
  rw [Except.bind_eq_ok] at h
  obtain ⟨⟨st, entries⟩, hrun, h⟩ := h
  cases h
  obtain ⟨new, groups, hnew, hgroups, hsub, hgood⟩ := traverseChildren_spec env flow.children
    (fun i cs hmem => hwell.nested hmem) (length_localOps hwell.built) hrun
  have hall : st.allOps = new := by simpa using hnew
  have hgroups' : st.exclusionGroups = groups := by simpa using hgroups
  have hinherited : Covered st.allOps [] := by simp [Covered]
  have hlisted : (localOps env "" [] flow.children).1 ⊆ st.allOps := hall ▸ hsub
  obtain ⟨hops, hbranches⟩ := hgood st.allOps (hall ▸ List.Subset.refl _) fun i cs hmem =>
    covered_listed hwell.built hlisted hinherited (hwell.built.subs i cs hmem)
  refine ⟨fun op hop => ?_, fun group hgroup => ?_⟩
  · rcases hops op (hall ▸ hop) with hop | hop
    · exact good_listed hwell.built hlisted hinherited hop
    · exact hop
  · rcases List.mem_append.mp (show group ∈ st.exclusionGroups ++ _ from hgroup) with hgroup | hgroup
    · exact hbranches group (hgroups' ▸ hgroup)
    · exact group_listed hwell.built hlisted rfl hgroup

/-! ## Names -/

/-- After the operators `ops` were named. -/
structure Named (env : Env) (ops : List OpCall) (st : Naming) : Prop where
  listed : st.namedOps.map Prod.snd = ops
  counted : ∀ op ∈ ops, st.nameCounts.find? (op.uniqueName env) ≠ none
  explicit : ops.Pairwise fun a b => b.name ≠ "" → a.uniqueName env ≠ b.name

theorem Named.add {env : Env} {ops : List OpCall} {st st' : Naming} {op : OpCall} (h : Named env ops st)
    (hadd : st.add env op = .ok st') : Named env (ops ++ [op]) st' := by
  have hcounted : ∀ o ∈ ops ++ [op], ∀ n,
      (st.nameCounts.insert (op.uniqueName env) n).find? (o.uniqueName env) ≠ none := by
    intro o ho n
    rw [SortedMap.find?_insert]
    split
    · nofun
    · next hne =>
      rcases List.mem_append.mp ho with ho | ho
      · exact h.counted o ho
      · exact absurd (by rw [List.mem_singleton.mp ho]) hne
  have hexplicit : (op.name ≠ "" → st.nameCounts.find? (op.uniqueName env) = none) →
      (ops ++ [op]).Pairwise fun a b => b.name ≠ "" → a.uniqueName env ≠ b.name := by
    intro hnew
    rw [List.pairwise_append]
    refine ⟨h.explicit, List.pairwise_singleton _ _, fun a ha b hb hname heq => ?_⟩
    obtain rfl := List.mem_singleton.mp hb
    have hself : b.uniqueName env = b.name := by rw [OpCall.uniqueName, if_pos hname]
    exact h.counted a ha (by rw [heq, ← hself, hnew hname])
  unfold Naming.add at hadd
  simp only at hadd
  split at hadd
  · next hnone =>
    cases hadd
    exact ⟨by simp [h.listed], fun o ho => hcounted o ho _, hexplicit fun _ => hnone⟩
  · next n hsome =>
    split_ifs at hadd with hname
    cases hadd
    exact ⟨by simp [h.listed], fun o ho => hcounted o ho _, hexplicit fun h => absurd h hname⟩

theorem Named.run {env : Env} {ops : List OpCall} {st : Naming} (h : ops.foldlM (Naming.add env) {} = .ok st) :
    Named env ops st :=
  Except.foldlM_invariant h ⟨rfl, by simp, List.Pairwise.nil⟩ fun _ _ _ _ _ hst hadd => hst.add hadd

theorem OpCall.Sited.name_ne {c : OpCall} (h : c.Sited) : c.name ≠ "" := by
  intro heq
  have hl := congrArg String.toList heq
  rcases h with ⟨kind, n, hname, -⟩ | ⟨path, text, hname, -⟩ <;> rw [hname] at hl
  · cases kind <;> simp [BranchKind.text] at hl
  · simp [pathPrefix] at hl

/-- The field of a control operator tells its name. -/
theorem OpCall.Sited.name_eq {c d : OpCall} (hc : c.Sited) (hd : d.Sited) (heq : c.commonOutput = d.commonOutput) :
    c.name = d.name := by
  have hraw : ∀ (kind : BranchKind) (n : Nat) path text,
      kind.fieldText ++ toString n ≠ "_" ++ (pathPrefix path ++ text) := fun kind n path text h =>
    not_raw_prefixed path text (h ▸ colon_not_mem_field kind n)
  rcases hc with ⟨kind, n, hcname, hcout⟩ | ⟨path, text, hcname, hcout⟩ <;>
    rcases hd with ⟨kind', n', hdname, hdout⟩ | ⟨path', text', hdname, hdout⟩ <;> rw [hcout, hdout] at heq
  · obtain ⟨rfl, rfl⟩ := fieldText_inj (List.cons.inj heq).1
    rw [hcname, hdname]
  · have hfield := (List.cons.inj heq).1
    rw [hdname] at hfield
    exact absurd hfield (hraw kind n path' text')
  · have hfield := (List.cons.inj heq).1
    rw [hcname] at hfield
    exact absurd hfield.symm (hraw kind' n' path text)
  · have hl := congrArg String.toList (List.cons.inj heq).1
    rw [String.toList_append, String.toList_append] at hl
    exact String.toList_inj.mp (List.append_cancel_left hl)

/-- What `compile_flow` gives the validators: the fields that guard operators are control fields, and every control
field has one operator. -/
structure Compiled (ops : List OpCall) (groups : List (List String)) : Prop where
  good : ∀ op ∈ ops, Good ops op
  branches : ∀ group ∈ groups, Branches ops group
  distinct : ops.Pairwise fun a b =>
    a.forBranchControl = true → b.forBranchControl = true → a.commonOutput ≠ b.commonOutput

theorem compiled_of_compiledOps (env : Env) {flow : FlowBase} (hwell : WellBuilt flow.info flow.children)
    {named : List (String × OpCall)} {t : Traversal} (h : compiledOps env flow = .ok (named, t)) :
    Compiled (named.map Prod.snd) t.exclusionGroups := by
  unfold compiledOps at h
  rw [Except.bind_eq_ok] at h
  obtain ⟨-, -, h⟩ := h
  rw [Except.bind_eq_ok] at h
  obtain ⟨t', htraverse, h⟩ := h
  rw [Except.bind_eq_ok] at h
  obtain ⟨naming, hnaming, h⟩ := h
  cases h
  obtain ⟨hgood, hbranches⟩ := traverse_good env hwell htraverse
  have hnamed := Named.run hnaming
  rw [hnamed.listed]
  refine ⟨hgood, hbranches, hnamed.explicit.imp_of_mem fun {a b} ha hb hab hactrl hbctrl heq => ?_⟩
  have hasited := (hgood a ha).sited hactrl
  have hbsited := (hgood b hb).sited hbctrl
  refine hab hbsited.name_ne ?_
  rw [OpCall.uniqueName, if_pos hasited.name_ne]
  exact hasited.name_eq hbsited heq

end Pineapple.Apple
