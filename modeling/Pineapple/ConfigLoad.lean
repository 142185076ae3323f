import Pineapple.Config
import Pineapple.Lib.Except

/-! # What a loaded configuration satisfies

The loader ends by filling in the registered traits and by validating what came out. -/

namespace Pineapple

/-- The parts of a configuration are read from the members of the root object. -/
structure LoadedFrom (root : List (String × Variant)) (parsed : Config) : Prop where
  contract : parseFlowContract root = .ok parsed.flowContract
  group : ∃ es, requireObj root "pipeline_group" = .ok es ∧ parseMap parsePipeline es = .ok parsed.pipelineGroup
  pipelines : ∃ pc es, requireObj root "pipeline_config" = .ok pc ∧
    (match pc.lookup "pipeline_map" with
      | none => (.ok ∅ : Except PineError (SortedMap String (List String)))
      | some v => do parseMap parsePipeline (← v.asObject)) = .ok parsed.pipelineMap ∧
    pc.lookup "operators" = some (.object es) ∧ parseMap parseOperator es = .ok parsed.operators

/-- What a successful load went through. -/
theorem steps_of_load {registry : Registry} {json : Variant} {config : Config}
    (h : loadConfigFromJson registry json = .ok config) :
    ∃ root parsed, json.asObject = .ok root ∧ LoadedFrom root parsed ∧ applyRegistryTraits registry parsed = .ok config ∧
      validateConfig config = .ok () := by
  unfold loadConfigFromJson at h
  obtain ⟨root, hroot, h⟩ := Except.bind_eq_ok.mp h
  obtain ⟨version, -, h⟩ := Except.bind_eq_ok.mp h
  obtain ⟨time, -, h⟩ := Except.bind_eq_ok.mp h
  obtain ⟨mode, -, h⟩ := Except.bind_eq_ok.mp h
  obtain ⟨pre, -, h⟩ := Except.bind_eq_ok.mp h
  obtain ⟨⟨⟩, -, h⟩ := Except.bind_eq_ok.mp h
  have tail : ∀ c : Config, LoadedFrom root c → (do
      let config ← applyRegistryTraits registry c
      validateConfig config
      return config) = .ok config → ∃ root parsed, json.asObject = .ok root ∧ LoadedFrom root parsed ∧
        applyRegistryTraits registry parsed = .ok config ∧ validateConfig config = .ok () := by
    intro c hfrom hc
    obtain ⟨config', ht, hc⟩ := Except.bind_eq_ok.mp hc
    obtain ⟨⟨⟩, hv, hc⟩ := Except.bind_eq_ok.mp hc
    rw [← Except.pure_eq_ok.mp hc]
    exact ⟨root, c, hroot, hfrom, ht, hv⟩
  have object : ∀ {v : Variant} {es : List (String × Variant)}, v.asObject = .ok es → v = .object es := by
    intro v es hv
    cases v with
    | object fs => exact congrArg Variant.object (Except.ok.inj hv)
    | _ => cases hv
  -- the optional parts are read one way or the other, and the checks come last on each
  dsimp only at h
  split at h
  all_goals
    obtain ⟨resources, -, h⟩ := Except.bind_eq_ok.mp h
    obtain ⟨contract, hcontract, h⟩ := Except.bind_eq_ok.mp h
    obtain ⟨groups, hgroups, h⟩ := Except.bind_eq_ok.mp h
    obtain ⟨group, hgroup, h⟩ := Except.bind_eq_ok.mp h
    obtain ⟨pipeline, hpipeline, h⟩ := Except.bind_eq_ok.mp h
    split at h
    · next hmap =>
      obtain ⟨map, hread, h⟩ := Except.bind_eq_ok.mp h
      split at h
      · cases h
      · next v hops =>
        obtain ⟨fields, hfields, h⟩ := Except.bind_eq_ok.mp h
        obtain ⟨operators, hoperators, h⟩ := Except.bind_eq_ok.mp h
        refine tail _ ⟨hcontract, ⟨groups, hgroups, hgroup⟩, pipeline, fields, hpipeline, ?_, ?_, hoperators⟩ h
        · rw [hmap]
          exact hread
        · rw [hops, object hfields]
    · next w hmap =>
      obtain ⟨maps, hmaps, h⟩ := Except.bind_eq_ok.mp h
      obtain ⟨map, hread, h⟩ := Except.bind_eq_ok.mp h
      split at h
      · cases h
      · next v hops =>
        obtain ⟨fields, hfields, h⟩ := Except.bind_eq_ok.mp h
        obtain ⟨operators, hoperators, h⟩ := Except.bind_eq_ok.mp h
        refine tail _ ⟨hcontract, ⟨groups, hgroups, hgroup⟩, pipeline, fields, hpipeline, ?_, ?_, hoperators⟩ h
        · rw [hmap]
          exact Except.bind_eq_ok.mpr ⟨maps, hmaps, hread⟩
        · rw [hops, object hfields]

/-- The last two steps of the loader. -/
theorem traits_of_load {registry : Registry} {json : Variant} {config : Config}
    (h : loadConfigFromJson registry json = .ok config) :
    (∃ parsed, applyRegistryTraits registry parsed = .ok config) ∧ validateConfig config = .ok () := by
  obtain ⟨-, parsed, -, -, htraits, hvalid⟩ := steps_of_load h
  exact ⟨⟨parsed, htraits⟩, hvalid⟩

theorem validateConfig_of_load {registry : Registry} {json : Variant} {config : Config}
    (h : loadConfigFromJson registry json = .ok config) : validateConfig config = .ok () :=
  (traits_of_load h).2

theorem validateOperator_of_validateConfig {config : Config} (h : validateConfig config = .ok ()) {name : String}
    {op : OperatorConfig} (hop : config.operators.find? name = some op) : validateOperator config name op = .ok () := by
  have hall : (config.operators.entries.forM fun e => validateOperator config e.1 e.2) = .ok () := by
    unfold validateConfig at h
    dsimp only at h
    split at h
    · cases h
    · split at h
      · cases h
      · obtain ⟨⟨⟩, hall, -⟩ := Except.bind_eq_ok.mp h
        exact hall
  exact Except.forM_eq_ok.mp hall _ (SortedMap.mem_entries.mpr hop)

/-- Every operator of the result went through `applyRegistryTrait`, and the rest is as it was parsed. -/
theorem applyRegistryTraits_spec {registry : Registry} {parsed config : Config}
    (h : applyRegistryTraits registry parsed = .ok config) :
    config = { parsed with operators := config.operators } ∧
    (∀ name, config.operators.contains name = true ↔ parsed.operators.contains name = true) ∧
    ∀ name op, config.operators.find? name = some op →
      ∃ raw, parsed.operators.find? name = some raw ∧ applyRegistryTrait registry name raw = .ok op := by
  unfold applyRegistryTraits at h
  obtain ⟨operators, hfold, h⟩ := Except.bind_eq_ok.mp h
  obtain rfl := Except.pure_eq_ok.mp h
  refine ⟨rfl, ?_⟩
  -- what the rounds have not reached is still as it was parsed
  obtain ⟨hsame, hspec⟩ : (∀ name, operators.contains name = true ↔ parsed.operators.contains name = true) ∧
      ∀ name op, operators.find? name = some op → ∃ raw, parsed.operators.find? name = some raw ∧
        (applyRegistryTrait registry name raw = .ok op ∨ name ∉ parsed.operators.entries.map Prod.fst) := by
    refine Except.foldlM_invariant hfold (P := fun pre (m : SortedMap String OperatorConfig) =>
      (∀ name, m.contains name = true ↔ parsed.operators.contains name = true) ∧
      ∀ name op, m.find? name = some op → ∃ raw, parsed.operators.find? name = some raw ∧
        (applyRegistryTrait registry name raw = .ok op ∨ name ∉ pre.map Prod.fst)) ?_ ?_
    · exact ⟨fun _ => Iff.rfl, fun _ op hop => ⟨op, hop, Or.inr List.not_mem_nil⟩⟩
    · rintro pre e m m' he ⟨hsame, hm⟩ hstep
      obtain ⟨op', hop', hstep⟩ := Except.bind_eq_ok.mp hstep
      obtain rfl := Except.pure_eq_ok.mp hstep
      refine ⟨fun name => ?_, fun name op hfind => ?_⟩
      · by_cases hn : name = e.1
        · rw [hn, SortedMap.contains_iff, SortedMap.contains_iff]
          exact ⟨fun _ => ⟨e.2, SortedMap.mem_entries.mp he⟩, fun _ => ⟨op', SortedMap.find?_insert_self ..⟩⟩
        · rw [SortedMap.contains, SortedMap.find?_insert_of_ne _ _ hn]
          exact hsame name
      · by_cases hn : name = e.1
        · subst hn
          rw [SortedMap.find?_insert_self] at hfind
          exact ⟨e.2, SortedMap.mem_entries.mp he, Or.inl (Option.some.inj hfind ▸ hop')⟩
        · rw [SortedMap.find?_insert_of_ne _ _ hn] at hfind
          obtain ⟨raw, hraw, hm⟩ := hm name op hfind
          refine ⟨raw, hraw, hm.imp_right fun hnot => ?_⟩
          rw [List.map_append, List.mem_append, not_or]
          exact ⟨hnot, fun h => hn (List.mem_singleton.mp h)⟩
  refine ⟨hsame, fun name op hop => ?_⟩
  obtain ⟨raw, hraw, hspec⟩ := hspec name op hop
  refine ⟨raw, hraw, hspec.resolve_right fun hnot => hnot ?_⟩
  exact SortedMap.mem_keys.mpr ((hsame name).mp (SortedMap.contains_iff.mpr ⟨op, hop⟩))

/-- What a map is parsed to, from members in key order. -/
theorem parseMap_spec {α : Type} {parse : String → Variant → Except PineError α} {es : List (String × Variant)}
    (hsorted : es.Pairwise fun a b => a.1 < b.1) {m : SortedMap String α} (h : parseMap parse es = .ok m) (k : String) :
    match es.lookup k with
    | none => m.find? k = none
    | some v => ∃ a, parse k v = .ok a ∧ m.find? k = some a := by
  have hfold := Except.foldlM_invariant h (P := fun pre (m : SortedMap String α) =>
    (∀ e ∈ pre, ∃ a, parse e.1 e.2 = .ok a ∧ (pre.Pairwise (fun a b => a.1 < b.1) → m.find? e.1 = some a)) ∧
      ∀ k, k ∉ pre.map Prod.fst → m.find? k = none) ?_ ?_
  · cases hlookup : es.lookup k with
    | none =>
      refine hfold.2 k fun hmem => ?_
      obtain ⟨e, he, rfl⟩ := List.mem_map.mp hmem
      rw [(SortedMap.lookup_eq_some_iff hsorted e.1 e.2).mpr he] at hlookup
      cases hlookup
    | some v =>
      obtain ⟨a, ha, hfind⟩ := hfold.1 _ ((SortedMap.lookup_eq_some_iff hsorted k v).mp hlookup)
      exact ⟨a, ha, hfind hsorted⟩
  · exact ⟨by simp, fun _ _ => rfl⟩
  · rintro pre e m m' - ⟨hin, hout⟩ hstep
    obtain ⟨a, ha, hstep⟩ := Except.bind_eq_ok.mp hstep
    obtain rfl := Except.pure_eq_ok.mp hstep
    refine ⟨fun x hx => ?_, fun k hk => ?_⟩
    · rcases List.mem_append.mp hx with hx | hx
      · obtain ⟨b, hb, hfind⟩ := hin x hx
        refine ⟨b, hb, fun hpair => ?_⟩
        obtain ⟨hpre, -, hcross⟩ := List.pairwise_append.mp hpair
        have hlt := hcross x hx e (List.mem_singleton_self e)
        rw [SortedMap.find?_insert_of_ne _ _ (ne_of_lt hlt), hfind hpre]
      · obtain rfl := List.mem_singleton.mp hx
        exact ⟨a, ha, fun _ => SortedMap.find?_insert_self ..⟩
    · rw [List.map_append, List.mem_append, not_or] at hk
      rw [SortedMap.find?_insert_of_ne _ _ fun heq => hk.2 (List.mem_singleton.mpr heq), hout k hk.1]

/-- The flags of a registered type are the operator's, and the type is known by its name. -/
theorem applyRegistryTrait_spec {registry : Registry} {name : String} {raw op : OperatorConfig}
    (h : applyRegistryTrait registry name raw = .ok op) :
    ∃ entry, registry op.typeName = some entry ∧ op.operatorType = entry.type.toString := by
  unfold applyRegistryTrait at h
  split at h
  · exact absurd h Except.error_ne_ok
  · next entry hentry =>
    obtain rfl := Except.ok.inj h
    exact ⟨entry, hentry, rfl⟩

theorem exclusive_of_validateConfig {config : Config} (h : validateConfig config = .ok ()) {name : String}
    {op : OperatorConfig} (hop : config.operators.find? name = some op) :
    (op.additiveWritesRowSet && op.mutatesRowSet) = false := by
  have hvalid := validateOperator_of_validateConfig h hop
  unfold validateOperator at hvalid
  obtain ⟨⟨⟩, -, hvalid⟩ := Except.bind_eq_ok.mp hvalid
  obtain ⟨⟨⟩, -, hvalid⟩ := Except.bind_eq_ok.mp hvalid
  by_contra hboth
  rw [Bool.not_eq_false] at hboth
  rw [hboth] at hvalid
  exact absurd hvalid Except.error_ne_ok

end Pineapple
