import Pineapple.EngineReads
import Pineapple.ScheduleIndependence

/-! # A run is a sequential one (`run_dag`)

Where the operators keep to their declarations and the DAG orders all who add rows, a run without an error is the
execution of the operators one after the other: every operator is skipped or writes what it writes there, and what is
left on the frame is what it leaves. -/

namespace Pineapple
open Relation FanOut

variable {σ π : Type}

/-! ## One after the other -/

/-- The turn of a node on the frame `f`: it is skipped, or what it makes of the frame is applied to it. -/
inductive RunEnv.Turn (env : RunEnv σ) (v : Nat) (f : FrameState σ) : Entry → FrameState σ → Prop
  | skipped : (shouldSkip (env.node v).op.skip).run f.common.find? = true → Turn env v f (.skipped v) f
  | applied {out f'} : env.Makes (env.node v) f out → env.deliver (env.node v) out f = .ok f' →
      Turn env v f (.applied v out) f'

/-- The nodes take turns, from the first one on. -/
inductive RunEnv.Sequence (env : RunEnv σ) (f₀ : FrameState σ) : List Entry → FrameState σ → Prop
  | nil : Sequence env f₀ [] f₀
  | snoc {log f e f'} : Sequence env f₀ log f → env.Turn log.length f e f' → Sequence env f₀ (log ++ [e]) f'

section Sequence
variable {env : RunEnv σ} {part : String → σ → π} {c : Nat → OperatorConfig} {n : Nat} {f₀ f f' s t : FrameState σ}
  {log log' : List Entry} {p : NodePlan}

theorem RunEnv.Turn.node {v : Nat} {e : Entry} (h : env.Turn v f e f') : e.node = v := by
  cases h <;> rfl

theorem RunEnv.Turn.clean {v : Nat} {e : Entry} (h : env.Turn v f e f') (hv : v < n) : env.CleanStep n e f f' := by
  cases h with
  | skipped hs => exact ⟨hv, rfl, hs⟩
  | applied _ hd => exact ⟨hv, hd⟩

theorem RunEnv.Sequence.nodes (h : env.Sequence f₀ log f) : log.map Entry.node = List.range log.length := by
  induction h with
  | nil => rfl
  | snoc _ ht ih => rw [List.map_append, ih, List.map_singleton, ht.node, List.length_append, List.length_singleton,
      List.range_succ]

theorem RunEnv.Sequence.replays (h : env.Sequence f₀ log f) (hn : log.length ≤ n) : Replay (env.CleanStep n) f₀ log f := by
  induction h with
  | nil => exact .nil
  | snoc _ ht ih =>
    rw [List.length_append, List.length_singleton] at hn
    exact (ih (Nat.le_of_succ_le hn)).snoc (ht.clean hn)

theorem RunEnv.Sequence.sorted (h : env.Sequence f₀ log f) : log.Pairwise fun a b => a.node < b.node := by
  have hmap : (log.map Entry.node).Pairwise (· < ·) := by
    rw [h.nodes]
    exact List.pairwise_lt_range
  exact List.pairwise_map.mp hmap

theorem RunEnv.Sequence.mem_iff_lt (h : env.Sequence f₀ log f) {v : Nat} : (∃ e ∈ log, e.node = v) ↔ v < log.length := by
  rw [← List.mem_range, ← h.nodes, List.mem_map]

/-! ## Outputs on frames that look alike -/

/-- Who makes an output on one frame makes it on another that looks alike. -/
theorem RunEnv.Makes.congr {out : OperatorOutput} (h : env.Makes p s out) (halike : env.Alike p s t) :
    env.Makes p t out := by
  cases h with
  | serial hskip hresolve hser hd =>
    refine .serial (halike.skip.symm.trans hskip) (halike.resolve.symm.trans hresolve) ?_ (halike.dispatches _ _ _ hd)
    by_cases hdp : 1 < p.op.dataParallel
    · rw [← halike.itemCount hdp]
      exact hser
    · exact Or.inl (Int.not_lt.mp hdp)
  | parallel hskip hresolve hdp hne hfst hds hm =>
    rw [halike.itemCount hdp] at hne hfst
    exact .parallel (halike.skip.symm.trans hskip) (halike.resolve.symm.trans hresolve) hdp hne hfst
      (fun e he => halike.dispatches _ _ _ (hds e he)) hm

/-- An output that leaves the items alone is applied to any frame or to none. -/
theorem applyOutputWith_free {S : Storage σ} {out : OperatorOutput} {op : String} {isRecall : Bool}
    (hno : ∀ f, ¬ out.Reaches (.item f)) (s t : FrameState σ) :
    Outcome.Rel (fun _ _ => True) (applyOutputWith S.store out op isRecall s) (applyOutputWith S.store out op isRecall t) := by
  have hfields : out.existingFields = [] := List.eq_nil_iff_forall_not_mem.mpr fun f hf => hno f (Or.inl hf)
  have hcalls : out.calls .addItem = false ∧ out.calls .removeItem = false ∧ out.calls .setItemOrder = false := by
    have h := hno ""
    simpa [OperatorOutput.Reaches, hfields] using h
  obtain ⟨hadd, hremove, horder⟩ := hcalls
  obtain ⟨hwrites, hcolumns⟩ : out.itemWrites = [] ∧ out.columnWrites = [] := by
    simpa [OperatorOutput.existingFields] using hfields
  have hadd : out.addedItems.isEmpty = true := by simpa [OperatorOutput.calls] using hadd
  have hremove : out.removedItems.keys.isEmpty = true := by
    simpa [OperatorOutput.calls, SortedMap.keys] using hremove
  have horder : out.itemOrder = none := by simpa [OperatorOutput.calls] using horder
  let R : FrameState σ → FrameState σ → Prop := fun _ _ => True
  have hcommon : Outcome.Rel R (applyCommonWrites op out.commonWrites.entries s)
      (applyCommonWrites op out.commonWrites.entries t) := by
    unfold applyCommonWrites
    exact Outcome.Rel.forEach_checked (R := R) _ _ _ (fun _ _ _ _ _ => trivial) trivial
  have hrest : ∀ s t, R s t → Outcome.Rel R (applyWarning op out.warning s) (applyWarning op out.warning t) := by
    intro s t _
    unfold applyWarning
    split <;> exact .ok trivial
  have hquiet : ∀ s t, R s t → Outcome.Rel R (Outcome.ok (ε := PineError) s) (Outcome.ok t) := fun _ _ h => .ok h
  unfold applyOutputWith
  rw [hwrites, hcolumns, horder]
  refine (((((hcommon.andThen hquiet).andThen hquiet).andThen fun s t h => ?_).andThen hquiet).andThen
    fun s t h => ?_).andThen hrest
  · unfold applyRemovals
    rw [if_pos hremove, if_pos hremove]
    exact .ok h
  · unfold applyAdditions
    rw [if_pos hadd, if_pos hadd]
    exact .ok h

/-- What an operator delivers on one frame it delivers on another that holds the same rows, if it touches them. -/
theorem RunEnv.Declared.delivers {d : OperatorConfig} (hdecl : env.Declared d p) (hS : env.storage.Fieldwise part)
    {out : OperatorOutput} (h : env.deliver p out s = .ok f) (hrows : d.TouchesRows → FrameState.SameAt part (.item kRowSet) s t) :
    ∃ f', env.deliver p out t = .ok f' := by
  obtain ⟨htype, hdeclared, happly⟩ := RunEnv.deliver_ok h
  have hdeliver : env.deliver p out t = applyOutputWith env.storage.store out p.op.name (p.op.operatorType = "recall") t := by
    unfold RunEnv.deliver
    rw [htype, hdeclared]
  rw [hdeliver]
  by_cases htouch : d.TouchesRows
  · have hrel := @Storage.Fieldwise.apply_rel _ _ _ _ out p.op.name (p.op.operatorType = "recall") hS _ _ _ (hrows htouch)
    rw [happly] at hrel
    generalize applyOutputWith env.storage.store out p.op.name (p.op.operatorType = "recall") t = o at hrel
    cases hrel with
    | ok _ => exact ⟨_, rfl⟩
  · -- who does not touch the rows writes no item
    have hno : ∀ g, ¬ out.Reaches (.item g) := by
      intro g hg
      rcases (hdecl.covers out htype hdeclared).writes hg with hw | ⟨a, -, ha⟩
      · obtain ⟨a, -, ha⟩ := OperatorConfig.access_of_itemOutput hw
        exact htouch ha.rowSet
      · exact htouch ⟨a, ha⟩
    have hrel := @applyOutputWith_free _ env.storage out p.op.name (p.op.operatorType = "recall") hno s t
    rw [happly] at hrel
    generalize applyOutputWith env.storage.store out p.op.name (p.op.operatorType = "recall") t = o at hrel
    cases hrel with
    | ok _ => exact ⟨_, rfl⟩

/-! ## A record is one of the sequence -/

/-- The entries before one of the record that meet its node are those of the nodes before it. -/
theorem RunEnv.Record.mem_before_iff (h : env.Record c n f₀ log f) {e e' : Entry} {pre : List Entry}
    (hpre : pre ++ [e] <+: log) (hmeets : (c e'.node).Meets (c e.node)) :
    e' ∈ pre ↔ e' ∈ log ∧ e'.node < e.node := by
  obtain ⟨post, rfl⟩ := hpre
  obtain ⟨hord, -, hcross⟩ := List.pairwise_append.mp h.ordered
  obtain ⟨-, -, hbefore⟩ := List.pairwise_append.mp hord
  constructor
  · intro he
    exact ⟨List.mem_append_left _ (List.mem_append_left _ he), hbefore e' he e (List.mem_singleton_self e) hmeets⟩
  · rintro ⟨hmem, hlt⟩
    rcases List.mem_append.mp hmem with hmem | hmem
    · rcases List.mem_append.mp hmem with hmem | hmem
      · exact hmem
      · obtain rfl := List.mem_singleton.mp hmem
        exact absurd hlt (Nat.lt_irrefl _)
    · exact absurd (hcross e (List.mem_append_right _ (List.mem_singleton_self e)) e' hmem hmeets.symm) (Nat.lt_asymm hlt)

/-- The nodes of a record, as far as they have had their turns. -/
structure RunEnv.Replayed (env : RunEnv σ) (f₀ : FrameState σ) (log : List Entry) (k : Nat) (seq : List Entry)
    (F : FrameState σ) : Prop where
  sequence : env.Sequence f₀ seq F
  length : seq.length = k
  sub : ∀ e ∈ seq, e ∈ log

namespace RunEnv.Replayed
variable {k : Nat} {seq : List Entry} {F : FrameState σ}

theorem mem_iff (h : env.Replayed f₀ log k seq F) (hrec : env.Record c n f₀ log f) {e : Entry} (he : e ∈ log) :
    e ∈ seq ↔ e.node < k := by
  rw [← h.length]
  constructor
  · exact fun hmem => h.sequence.mem_iff_lt.mp ⟨e, hmem, rfl⟩
  · intro hlt
    obtain ⟨e', he', hnode⟩ := h.sequence.mem_iff_lt.mpr hlt
    rwa [hrec.unique e he e' (h.sub e' he') hnode.symm]

/-- The frame after the turns before `e` and a frame that `pre` has left, when `pre` holds those of them that write a
place. -/
theorem same (hdecl : ∀ v < n, env.Declared (c v) (env.node v)) (hS : env.storage.Fieldwise part)
    (h : env.Replayed f₀ log k seq F) (hk : k ≤ n) {pre : List Entry} {G : FrameState σ}
    (hG : Replay (env.CleanStep n) f₀ pre G)
    (hord : pre.Pairwise fun a b => (c a.node).Meets (c b.node) → a.node < b.node) {x : Place}
    (hmem : ∀ e, (c e.node).WritesPlace x → (e ∈ seq ↔ e ∈ pre)) : FrameState.SameAt part x F G := by
  have hp := RunEnv.placeWise hdecl hS
  classical
  have hreplays := h.sequence.replays (h.length.trans_le hk)
  refine hp.same_of_ordered (k := Entry.node) (hp.refl x f₀) hreplays hG ?_ ?_ hmem
  · exact h.sequence.sorted.imp fun hlt _ _ => hlt
  · exact hord.imp fun hab ha hb => hab (OperatorConfig.meets_of_place ha (Or.inr hb))

/-- The next node has its turn. -/
theorem next (hdecl : ∀ v < n, env.Declared (c v) (env.node v)) (hS : env.storage.Fieldwise part)
    (hrec : env.Record c n f₀ log f) (h : env.Replayed f₀ log k seq F) (hk : k < n) :
    ∃ seq' F', env.Replayed f₀ log (k + 1) seq' F' := by
  obtain ⟨e, he, rfl⟩ := hrec.total k hk
  obtain ⟨pre, G, hsub, hG⟩ := hrec.began e he
  have hmeets : ∀ {e' : Entry} {x : Place}, (c e.node).ReadsPlace x → (c e'.node).WritesPlace x →
      (c e'.node).Meets (c e.node) := fun hx hw => OperatorConfig.meets_of_place hw (Or.inl hx)
  have hbegin : ∀ x, (c e.node).ReadsPlace x → FrameState.SameAt part x G F := by
    intro x hx
    refine (RunEnv.placeWise hdecl hS).symm x _ _ ?_
    refine h.same hdecl hS hk.le hG.replays (hrec.ordered.sublist hsub) fun e' hw => ?_
    constructor
    · intro hmem
      have hlt := (h.mem_iff hrec (h.sub e' hmem)).mp hmem
      obtain ⟨e'', he'', hnode⟩ := hG.behind e'.node hlt (hmeets hx hw)
      rwa [← hrec.unique e'' (hsub.subset he'') e' (h.sub e' hmem) hnode]
    · intro hmem
      exact (h.mem_iff hrec (hsub.subset hmem)).mpr (hG.clear e' hmem (hmeets hx hw))
  have halike := (hdecl e.node hk).alike hS hbegin
  -- the frame the entry was applied to holds the same rows
  obtain ⟨before, s, s', hprefix, hs, hstep⟩ := hrec.replays.at_mem he
  have hrows : (c e.node).TouchesRows → FrameState.SameAt part (.item kRowSet) s F := by
    intro htouch
    have hx : (c e.node).ReadsPlace (.item kRowSet) := Or.inr ⟨rfl, htouch⟩
    refine (RunEnv.placeWise hdecl hS).symm _ _ _ ?_
    have hsubset : before.Sublist log := (List.sublist_append_left before [e]).trans hprefix.sublist
    refine h.same hdecl hS hk.le hs (hrec.ordered.sublist hsubset) fun e' hw => ?_
    rw [hrec.mem_before_iff hprefix (hmeets hx hw)]
    exact ⟨fun hmem => ⟨h.sub e' hmem, (h.mem_iff hrec (h.sub e' hmem)).mp hmem⟩,
      fun hmem => (h.mem_iff hrec hmem.1).mpr hmem.2⟩
  have hturn : ∃ F', env.Turn seq.length F e F' := by
    rw [h.length]
    have hsees := hG.sees
    cases e with
    | failed v err => exact absurd rfl (hrec.clean he v err)
    | skipped v => exact ⟨F, .skipped (halike.skip.symm.trans hsees)⟩
    | applied v out =>
      obtain ⟨F', hF'⟩ := (hdecl v hk).delivers hS hstep.2 hrows
      exact ⟨F', .applied (RunEnv.Makes.congr hsees halike) hF'⟩
  obtain ⟨F', hturn⟩ := hturn
  refine ⟨seq ++ [e], F', h.sequence.snoc hturn, ?_, fun e' he' => ?_⟩
  · rw [List.length_append, List.length_singleton, h.length]
  · rcases List.mem_append.mp he' with he' | he'
    · exact h.sub e' he'
    · obtain rfl := List.mem_singleton.mp he'
      exact he

end RunEnv.Replayed

/-- A record has the entries of a sequential execution, and its frame. -/
theorem RunEnv.Record.sequence (hdecl : ∀ v < n, env.Declared (c v) (env.node v)) (hS : env.storage.Fieldwise part)
    (h : env.Record c n f₀ log f) : ∃ seq F, env.Sequence f₀ seq F ∧ seq.length = n ∧ (∀ e, e ∈ seq ↔ e ∈ log) ∧
      ∀ x, FrameState.SameAt part x F f := by
  have hreplayed : ∀ k ≤ n, ∃ seq F, env.Replayed f₀ log k seq F := by
    intro k hk
    induction k with
    | zero => exact ⟨[], f₀, .nil, rfl, fun e he => absurd he List.not_mem_nil⟩
    | succ k ih =>
      obtain ⟨seq, F, hseq⟩ := ih (Nat.le_of_succ_le hk)
      exact hseq.next hdecl hS h hk
  obtain ⟨seq, F, hseq⟩ := hreplayed n le_rfl
  have hmem : ∀ e, e ∈ seq ↔ e ∈ log := fun e =>
    ⟨hseq.sub e, fun he => (hseq.mem_iff h he).mpr (h.bound he)⟩
  exact ⟨seq, F, hseq.sequence, hseq.length, hmem,
    fun x => hseq.same hdecl hS le_rfl h.replays h.ordered fun e _ => hmem e⟩

end Sequence

/-! ## The engine -/

/-- What the engine has prepared for the node `v`: `run_dag` looks the operator up by the node's name, and the rest by
the operator's. -/
def Engine.nodePlan (engine : Engine) (v : Nat) : NodePlan :=
  let op := (operatorAt engine.config engine.expanded v).getD {}
  { op, spec := (engine.inputSpecs.find? op.name).getD {}, template := engine.planOf op.name }

/-- The operators keep to what the configuration declares of them. -/
structure RunEnv.KeepsTo (env : RunEnv σ) (config : Config) (engine : Engine) : Prop where
  plans : ∀ v < engine.graph.nodes.length, env.node v = engine.nodePlan v
  markers : ∀ v c f, operatorAt config engine.expanded v = some c → c.TemplateField f → f ∈ c.metadata.commonReadFields
  marked : ∀ v c t, operatorAt config engine.expanded v = some c → c.operatorType = t.toString → c.Marked t
  sharded : ∀ v c, operatorAt config engine.expanded v = some c → 1 < c.dataParallel → c.TouchesRows
  reads : ∀ v c a b resolved att, operatorAt config engine.expanded v = some c → OperatorInput.AgreesOn c a b →
    env.exec c.hideSkip a resolved att → env.exec c.hideSkip b resolved att
  once : ∀ v c a resolved att att', operatorAt config engine.expanded v = some c → env.exec c.hideSkip a resolved att →
    env.exec c.hideSkip a resolved att' → att = att'

section Engine
variable {registry : Registry} {schemas : String → Option OperatorSchema} {init : OperatorConfig → Except PineError Unit}
  {json : Variant} {config : Config} {engine : Engine} {env : RunEnv σ} {part : String → σ → π} {f₀ : FrameState σ}

theorem parseOperator_name {name : String} {value : Variant} {op : OperatorConfig} (h : parseOperator name value = .ok op) :
    op.name = name := by
  unfold parseOperator at h
  obtain ⟨obj, -, h⟩ := Except.bind_eq_ok.mp h
  dsimp only at h
  split at h
  · cases h
  · obtain ⟨typeName, -, h⟩ := Except.bind_eq_ok.mp h
    obtain ⟨metadata, -, h⟩ := Except.bind_eq_ok.mp h
    obtain ⟨skip, -, h⟩ := Except.bind_eq_ok.mp h
    obtain ⟨commonDefaults, -, h⟩ := Except.bind_eq_ok.mp h
    obtain ⟨itemDefaults, -, h⟩ := Except.bind_eq_ok.mp h
    obtain ⟨strictCommon, -, h⟩ := Except.bind_eq_ok.mp h
    obtain ⟨strictItem, -, h⟩ := Except.bind_eq_ok.mp h
    obtain ⟨sources, -, h⟩ := Except.bind_eq_ok.mp h
    rw [← Except.pure_eq_ok.mp h]

/-- What a parsed map holds was parsed under its key. -/
theorem parsed_of_parseMap {α : Type} {parse : String → Variant → Except PineError α} {es : List (String × Variant)}
    {m : SortedMap String α} (h : parseMap parse es = .ok m) {k : String} {a : α} (hk : m.find? k = some a) :
    ∃ v, parse k v = .ok a := by
  have hinv := Except.foldlM_invariant h (P := fun _ (m : SortedMap String α) =>
    ∀ k a, m.find? k = some a → ∃ v, parse k v = .ok a) ?_ ?_
  · exact hinv k a hk
  · exact fun k a hk => absurd hk nofun
  · rintro pre e m m' - hm hstep k a hk
    obtain ⟨b, hb, hstep⟩ := Except.bind_eq_ok.mp hstep
    obtain rfl := Except.pure_eq_ok.mp hstep
    rw [SortedMap.find?_insert] at hk
    split at hk
    · next heq =>
      obtain rfl := Option.some.inj hk
      exact ⟨e.2, heq ▸ hb⟩
    · exact hm k a hk

/-- The operators of a configuration stand under their names and have a type. -/
theorem operator_of_load (h : loadConfigFromJson registry json = .ok config) {name : String} {op : OperatorConfig}
    (hop : config.operators.find? name = some op) : op.name = name ∧ ∃ t : OperatorType, op.operatorType = t.toString := by
  obtain ⟨root, parsed, -, ⟨-, -, pc, es, -, -, -, hoperators⟩, htraits, -⟩ := steps_of_load h
  obtain ⟨-, -, hraw⟩ := applyRegistryTraits_spec htraits
  obtain ⟨raw, hparsed, htrait⟩ := hraw name op hop
  obtain ⟨entry, -, htype⟩ := applyRegistryTrait_spec htrait
  refine ⟨?_, entry.type, htype⟩
  obtain ⟨v, hv⟩ := parsed_of_parseMap hoperators hparsed
  rw [← parseOperator_name hv]
  unfold applyRegistryTrait at htrait
  split at htrait
  · cases htrait
  · rw [← Except.ok.inj htrait]

theorem mem_spec_item {c : OperatorConfig} {f : String}
    (h : f ∈ (computeInputFieldSpec c).strictItem ∨ f ∈ (computeInputFieldSpec c).nullableItem) :
    f ∈ c.metadata.itemInput := by
  simp only [computeInputFieldSpec, foldl_bucketField, List.nil_append, List.mem_filter] at h
  exact h.elim And.left And.left

/-- A node of the engine keeps to the declarations of its operator. -/
theorem RunEnv.KeepsTo.declared (hkeeps : env.KeepsTo config engine)
    (hload : loadConfigFromJson registry json = .ok config) (hbuild : buildEngine schemas init config = .ok engine) {v : Nat}
    (hv : v < engine.graph.nodes.length) {c : OperatorConfig} (hc : operatorAt config engine.expanded v = some c) :
    env.Declared c (env.node v) := by
  obtain ⟨name, hname, hop⟩ := Option.bind_eq_some_iff.mp hc
  have hprep := (buildEngine_spec hbuild).2 name c hop
  obtain ⟨hcname, t, ht⟩ := operator_of_load hload hop
  obtain ⟨schema, -, hplan⟩ := hprep.plan
  obtain ⟨-, hfields⟩ := buildTemplatedParamPlan_spec hplan
  have hvalid := validateConfig_of_load hload
  have hoperator : operatorAt engine.config engine.expanded v = some c.hideSkip := by
    unfold operatorAt
    rw [hname]
    exact hprep.operator
  have hnode : env.node v = ⟨c.hideSkip, computeInputFieldSpec c.hideSkip, engine.planOf name⟩ := by
    have hspec : engine.inputSpecs.find? c.hideSkip.name = some (computeInputFieldSpec c.hideSkip) := by
      rw [← hprep.spec, ← hcname]
      rfl
    have hplanOf : engine.planOf c.hideSkip.name = engine.planOf name := congrArg engine.planOf hcname
    rw [hkeeps.plans v hv]
    unfold Engine.nodePlan
    dsimp only
    rw [hoperator, Option.getD_some, hspec, hplanOf, Option.getD_some]
  have hvisible : ∀ f ∈ c.hideSkip.visibleCommon, f ∈ c.metadata.commonReadFields := by
    intro f hf
    have hinput : f ∈ c.hideSkip.metadata.commonInput := (mem_visibleCommon.mp hf).1
    exact Metadata.mem_commonReadFields.mpr (Or.inl (List.mem_filter.mp hinput).1)
  obtain ⟨-, hstrict, hnullable⟩ := spec_common c.hideSkip
  rw [hnode]
  refine
    { skip := fun f hf => ?_
      template := fun f hf => ?_
      strictCommon := fun f hf => ?_
      nullableCommon := fun f hf => ?_
      strictItem := fun f hf => mem_spec_item (c := c.hideSkip) (Or.inl hf)
      nullableItem := fun f hf => mem_spec_item (c := c.hideSkip) (Or.inr hf)
      sharded := hkeeps.sharded v c hc
      covers := fun out htype hdeclared => ?_
      reads := fun a b resolved att hagrees => hkeeps.reads v c a b resolved att hc hagrees
      once := fun a resolved att att' => hkeeps.once v c a resolved att att' hc }
  · exact Metadata.mem_commonReadFields.mpr ((skip_declared hvalid hop f hf).imp_right Or.inl)
  · exact hkeeps.markers v c f hc ((hfields f).mp hf)
  · rw [hstrict] at hf
    exact hvisible f (List.mem_filter.mp hf).1
  · rw [hnullable] at hf
    exact hvisible f (List.mem_filter.mp hf).1
  · obtain ⟨hpass, hdecl⟩ := (@gates_ok_iff _ t c.hideSkip out ht).mp ⟨htype, hdeclared⟩
    exact (hkeeps.marked v c t hc ht).covers (exclusive_of_validateConfig hvalid hop) ⟨hpass, hdecl⟩

/-- The operator of a node. -/
def Engine.operatorOf (engine : Engine) (config : Config) (v : Nat) : OperatorConfig :=
  (operatorAt config engine.expanded v).getD {}

theorem engine_operatorOf (hbuild : buildEngine schemas init config = .ok engine) {v : Nat}
    (hv : v < engine.graph.nodes.length) : operatorAt config engine.expanded v = some (engine.operatorOf config v) := by
  obtain ⟨node, hnode⟩ : ∃ node, engine.graph.nodes[v]? = some node := ⟨_, List.getElem?_eq_getElem hv⟩
  have hop := (buildDag_spec (buildEngine_spec hbuild).1).operator v
  rw [hnode, Option.map_some] at hop
  unfold Engine.operatorOf
  rw [← hop, Option.getD_some]

/-- What the runs of an engine whose operators keep to their declarations rest on. -/
theorem RunEnv.KeepsTo.ordered (hkeeps : env.KeepsTo config engine)
    (hload : loadConfigFromJson registry json = .ok config) (hbuild : buildEngine schemas init config = .ok engine)
    (hadds : ∀ i j ci cj, i < j → operatorAt config engine.expanded i = some ci → operatorAt config engine.expanded j = some cj →
      ci.additiveWritesRowSet = true → cj.additiveWritesRowSet = true → TransGen engine.graph.Edge i j) :
    GraphInv engine.graph ∧
    (∀ v < engine.graph.nodes.length, env.Declared (engine.operatorOf config v) (env.node v)) ∧
    ∀ i j, i < j → j < engine.graph.nodes.length → (engine.operatorOf config i).Meets (engine.operatorOf config j) →
      TransGen engine.graph.Edge i j := by
  have hspec := buildDag_spec (buildEngine_spec hbuild).1
  refine ⟨hspec.inv, fun v hv => hkeeps.declared hload hbuild hv (engine_operatorOf hbuild hv), ?_⟩
  intro i j hij hj hmeets
  have hi := engine_operatorOf hbuild (hij.trans hj)
  rcases hmeets with hconflict | ⟨hai, haj⟩
  · have hreach := hspec.hazard i j _ _ hij hi (engine_operatorOf hbuild hj) hconflict
    exact (reflTransGen_iff_eq_or_transGen.mp hreach).resolve_left hij.ne'
  · exact hadds i j _ _ hij hi (engine_operatorOf hbuild hj) hai haj

/-- Frames that hold the same everywhere read alike. -/
theorem Storage.Fieldwise.view_congr {S : Storage σ} (hS : S.Fieldwise part) {a b : FrameState σ}
    (h : ∀ x, FrameState.SameAt part x a b) : a.common = b.common ∧ ∀ w, S.view a w = S.view b w := by
  have hcommon : ∀ f, a.common.find? f = b.common.find? f := fun f => h (.common f)
  have hitem : ∀ f, part f a.items = part f b.items := fun f => h (.item f)
  have hrows := hS.rowCount (hitem "")
  refine ⟨SortedMap.ext_find? hcommon, fun w => ?_⟩
  have hview : ∀ {u v : Frame}, u.common = v.common → u.hasCommon = v.hasCommon → u.itemCount = v.itemCount →
      u.item = v.item → u.itemHas = v.itemHas → u.itemColumn = v.itemColumn →
      u.validateStrictItems = v.validateStrictItems → u = v := by
    rintro ⟨⟩ ⟨⟩ rfl rfl rfl rfl rfl rfl rfl
    rfl
  refine hview (funext fun f => ?_) (funext fun f => ?_) (hS.itemCount w hrows) (funext fun i => funext fun f => ?_)
    (funext fun i => funext fun f => ?_) (funext fun f => ?_) (funext fun fields => ?_)
  · rw [hS.common, hS.common, hcommon]
  · rw [hS.hasCommon, hS.hasCommon, hcommon]
  · exact hS.item w i (hitem f)
  · exact hS.itemHas w i (hitem f)
  · exact hS.itemColumn w (hitem f)
  · exact hS.validateStrictItems w hrows fun f _ => hitem f

end Engine

/-! ### Runs of a single operator -/

namespace Solo

def json : Variant := .object [
  ("pipeline_config", .object [("operators", .object [
    ("nap", .object [("$metadata", .object [("item_output", .array [.string "_bench_slept"])]),
      ("type_name", .string "transform_bench_sleep")])])]),
  ("pipeline_group", .object [("main", .object [("pipeline", .array [.string "nap"])])])]

def config : Config := (loadConfigFromJson truncateRegistry json).toOption.getD {}

def engine : Engine :=
  (buildEngine truncateSchemas (fun _ => .ok ()) config).toOption.getD { config := {}, expanded := {}, graph := {} }

/-- Every item has slept. -/
def slept (n : Nat) : OperatorOutput :=
  { itemWrites := (List.range n).map fun i : Nat => ⟨(i : Int), "_bench_slept", .bool true⟩ }

def env : RunEnv (List Row) where
  storage := RowFrame.storage
  text := integerText
  node := engine.nodePlan
  exec _ input _ a := a = ⟨slept input.itemCount, none⟩

def rows : RowFrame := ⟨∅, [∅, ∅], []⟩

/-- The calling thread in the operator's body. -/
def running : SchedState where
  shared := { (SchedState.init engine.graph 0).shared with seeds := [], dispatched := [0] }
  main := [⟨0, .running⟩]
  workers := [[]]

/-- What two items that slept leave. -/
def after : RowFrame :=
  ⟨∅, [SortedMap.ofList [("_bench_slept", .bool true)], SortedMap.ofList [("_bench_slept", .bool true)]], []⟩

/-- The one operator. -/
def nap : OperatorConfig := (config.operators.find? "nap").getD {}

/-- What the definitions come to on this configuration. -/
theorem evaluates : (SchedState.init engine.graph 0).shared.seeds = [0] ∧ engine.graph.succs 0 = [] ∧
    engine.graph.nodes.length = 1 ∧ loadConfigFromJson truncateRegistry json = .ok config ∧
    (buildEngine truncateSchemas (fun _ => .ok ()) config).toOption.isSome = true ∧ engine.expanded.sequence = ["nap"] ∧
    config.operators.find? "nap" = some nap ∧ nap.params = .object [] ∧ nap.operatorType = "transform" ∧
    nap.additiveWritesRowSet = false ∧ nap.metadata.itemOutput = ["_bench_slept"] ∧ nap.dataParallel ≤ 1 := by decide +kernel

/-- What a run of it comes to. -/
theorem steps : (shouldSkip (env.node 0).op.skip).run rows.common.find? = false ∧
    (env.text.resolveTemplatedParams (env.node 0).template ∅).run rows.common.find? = .ok ∅ ∧
    (env.node 0).op.dataParallel ≤ 1 ∧ (env.storage.view rows none).inputViolation (env.node 0).spec = none ∧
    env.deliver (env.node 0) (slept 2) rows = .ok after := by decide +kernel

theorem seeds : (SchedState.init engine.graph 0).shared.seeds = [0] := evaluates.1
theorem succs : engine.graph.succs 0 = [] := evaluates.2.1
theorem length : engine.graph.nodes.length = 1 := evaluates.2.2.1
theorem load : loadConfigFromJson truncateRegistry json = .ok config := evaluates.2.2.2.1

theorem build : buildEngine truncateSchemas (fun _ => .ok ()) config = .ok engine :=
  Except.eq_ok_getD evaluates.2.2.2.2.1 _

section Runs
variable {env : RunEnv (List Row)} {f₀ f f' : FrameState (List Row)} {b b' : Body}

/-- The body has come to `b` and nothing else has happened. -/
def Comes (env : RunEnv (List Row)) (f₀ f : FrameState (List Row)) (b : Body) : Prop :=
  ∃ s, RunReachable env engine.graph false 0 f₀ s ∧ s.sched = running ∧ s.frame = f ∧ s.bodies 0 = b

theorem Comes.start (env : RunEnv (List Row)) (f₀ : FrameState (List Row)) : Comes env f₀ f₀ .entered :=
  ⟨_, (ReflTransGen.single (.sched (.seedInline (i := 0) rfl seeds))).tail (.enter (.main rfl (.enter rfl))),
    rfl, rfl, Function.update_self ..⟩

theorem Comes.step (h : Comes env f₀ f b) (hb : BodyStep env (env.node 0) false f b f' b') : Comes env f₀ f' b' := by
  obtain ⟨s, hr, hsched, rfl, rfl⟩ := h
  have hcancelled : s.sched.shared.cancelled = false := by
    rw [hsched]
    rfl
  refine ⟨_, hr.tail (.body (i := 0) (hcancelled ▸ hb)), hsched, rfl, ?_⟩
  show Function.update s.bodies 0 b' 0 = b'
  exact Function.update_self ..

/-- Once its output is applied the run returns. -/
theorem Comes.returns {out : OperatorOutput} (h : Comes env f₀ f (.applied out)) : ∃ s,
    RunReachable env engine.graph false 0 f₀ s ∧ s.sched.mainReturned = true ∧ s.error? false = none ∧ s.frame = f := by
  obtain ⟨⟨sched, frame, bodies, exits, callerDone, log, counted, traces⟩, hr, hsched, hframe, hbody⟩ := h
  dsimp only at hsched hframe hbody
  subst hsched hframe
  have hlast : running.shared.remaining = 1 := by
    show ((engine.graph.nodes.length : Nat) : Int) = 1
    rw [length]
    rfl
  have hpropagate : (⟨0, .propagate (engine.graph.succs 0)⟩ : Activation) = ⟨0, .propagate []⟩ := by rw [succs]
  have hsucceeded : (bodies 0).Succeeded := by
    rw [hbody]
    exact trivial
  exact ⟨_, (((hr.tail (.finish (.main rfl .finish) hsucceeded)).tail
    (.sched (.main (congrArg (· :: []) hpropagate) (.last hlast)))).tail
      (.sched (.main rfl .signal))).tail (.sched (.wake rfl rfl rfl rfl)), rfl, rfl, rfl⟩

end Runs

theorem operator_eq : ∃ op : OperatorConfig, op.params = .object [] ∧ op.operatorType = "transform" ∧
    op.additiveWritesRowSet = false ∧ op.metadata.itemOutput = ["_bench_slept"] ∧ op.dataParallel ≤ 1 ∧
    ∀ v c, operatorAt config engine.expanded v = some c → v = 0 ∧ c = op := by
  obtain ⟨-, -, -, -, -, hsequence, hop, hparams, htype, hmarks, hout, hparallel⟩ := evaluates
  refine ⟨nap, hparams, htype, hmarks, hout, hparallel, fun v c hc => ?_⟩
  unfold operatorAt at hc
  rw [hsequence] at hc
  rcases v with _ | v
  · exact ⟨rfl, (Option.some.inj (hop.symm.trans hc)).symm⟩
  · cases hc

theorem keeps : env.KeepsTo config engine := by
  obtain ⟨op, hparams, htype, hmarks, hout, hparallel, hoperator⟩ := operator_eq
  have hrows : op.TouchesRows := ⟨.read, .rowSetRead hmarks (Or.inr (by rw [hout]; exact List.cons_ne_nil _ _))⟩
  refine ⟨fun v _ => rfl, fun v c f hc hf => ?_, fun v c t hc ht => ?_, fun v c hc _ => ?_, ?_, ?_⟩
  · obtain ⟨-, rfl⟩ := hoperator v c hc
    obtain ⟨es, hes, e, he, -⟩ := hf
    rw [hparams] at hes
    obtain rfl := Variant.object.inj hes
    exact absurd he List.not_mem_nil
  · obtain ⟨-, rfl⟩ := hoperator v c hc
    obtain rfl : t = .transform := by
      rw [htype] at ht
      cases t <;> first | rfl | exact absurd ht (by decide)
    refine ⟨nofun, fun h => ?_, fun _ ha => ?_⟩
    · rcases h with h | h | h <;> cases h
    · rw [hmarks] at ha
      cases ha
  · obtain ⟨-, rfl⟩ := hoperator v c hc
    exact hrows
  · rintro v c a b resolved att hc hagrees rfl
    obtain ⟨-, rfl⟩ := hoperator v c hc
    show _ = (⟨slept b.itemCount, none⟩ : Attempt)
    rw [hagrees.itemCount hrows]
  · rintro v c a resolved att att' - rfl rfl
    rfl

theorem adds {i j : Nat} {ci cj : OperatorConfig} (hij : i < j) (hi : operatorAt config engine.expanded i = some ci)
    (hj : operatorAt config engine.expanded j = some cj) : TransGen engine.graph.Edge i j := by
  obtain ⟨op, -, -, -, -, -, hoperator⟩ := operator_eq
  rw [(hoperator i ci hi).1, (hoperator j cj hj).1] at hij
  exact absurd hij (Nat.lt_irrefl 0)

theorem ready : Comes env rows rows (.ready ∅) :=
  ((Comes.start env rows).step (.goOn steps.1)).step (.resolve steps.2.1)

/-- A view whose input check finds nothing. -/
theorem input (w : Option Window) (h : (env.storage.view rows w).inputViolation (env.node 0).spec = none) :
    buildOperatorInput (env.storage.view rows w) (env.node 0).op.name (env.node 0).spec =
      .ok ⟨env.storage.view rows w, (env.node 0).spec⟩ := by
  unfold buildOperatorInput
  rw [h]

theorem run : ∃ s, RunReachable env engine.graph false 0 rows s ∧ s.sched.mainReturned = true ∧ s.error? false = none ∧
    s.frame = after := by
  obtain ⟨-, -, hserial, hinput, hdelivers⟩ := steps
  have hproduced : Comes env rows rows (.produced (slept 2)) :=
    ready.step (.serial (Or.inl hserial) (.returns (input none hinput) rfl))
  exact (hproduced.step (.apply hdelivers)).returns

end Solo

end Pineapple
