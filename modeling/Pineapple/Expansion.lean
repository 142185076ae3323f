import Mathlib.Data.List.Nodup
import Mathlib.Data.List.Perm.Subperm
import Mathlib.Logic.Relation
import Pineapple.Config
import Pineapple.Lib.Except

/-! # The expansion of sub-flows

`expand_entries` calls itself on the entries of a sub-flow that is not being expanded yet. `Expands` is that recursion
as it stands in the source, without a bound on its depth; `Unfolds` is the tree of the entries, by its leaves from left
to right. -/

namespace Pineapple
open Relation

/-- `expand_entries`: what it makes of the entries of `parent`, `visiting` being the sub-flows under expansion. -/
inductive Expands (config : Config) :
    String → List String → List String → ExpandState → Except PineError ExpandState → Prop
  | nil {parent visiting st} : Expands config parent visiting [] st (.ok st)
  | op {parent visiting entry entries st r} : config.operators.contains entry = true → entry ∉ st.seen →
      Expands config parent visiting entries
        { sequence := st.sequence ++ [entry], mapping := st.mapping.insert entry parent, seen := entry :: st.seen } r →
      Expands config parent visiting (entry :: entries) st r
  | twice {parent visiting entry entries st} : config.operators.contains entry = true → entry ∈ st.seen →
      Expands config parent visiting (entry :: entries) st
        (.error (.config ("operator \"" ++ entry ++ "\" referenced more than once in pipeline tree")))
  | sub {parent visiting entry entries st es st' r} : config.operators.contains entry = false →
      config.pipelineMap.find? entry = some es → entry ∉ visiting →
      Expands config entry (entry :: visiting) es st (.ok st') → Expands config parent visiting entries st' r →
      Expands config parent visiting (entry :: entries) st r
  | subFails {parent visiting entry entries st es e} : config.operators.contains entry = false →
      config.pipelineMap.find? entry = some es → entry ∉ visiting →
      Expands config entry (entry :: visiting) es st (.error e) →
      Expands config parent visiting (entry :: entries) st (.error e)
  | cycle {parent visiting entry entries st es} : config.operators.contains entry = false →
      config.pipelineMap.find? entry = some es → entry ∈ visiting →
      Expands config parent visiting (entry :: entries) st
        (.error (.config ("cycle detected in sub-flow expansion: \"" ++ entry ++ "\"")))
  | unknown {parent visiting entry entries st} : config.operators.contains entry = false →
      config.pipelineMap.find? entry = none →
      Expands config parent visiting (entry :: entries) st
        (.error (.config ("pipeline entry \"" ++ entry ++ "\" is neither an operator nor a sub-flow")))

/-- The entries of the group the expansion starts from. -/
def mainGroup (config : Config) : Option (List String) :=
  match config.pipelineGroup.find? "main" with
  | some entries => some entries
  | none => match config.pipelineGroup.entries with
    | [(_, entries)] => some entries
    | _ => none

/-- The leaves of the tree under the entries of `parent`, each with the sub-flow that contains it. -/
inductive Unfolds (config : Config) : String → List String → List (String × String) → Prop
  | nil {parent} : Unfolds config parent [] []
  | op {parent entry entries l} : config.operators.contains entry = true → Unfolds config parent entries l →
      Unfolds config parent (entry :: entries) ((entry, parent) :: l)
  | sub {parent entry entries es l l'} : config.operators.contains entry = false →
      config.pipelineMap.find? entry = some es → Unfolds config entry es l → Unfolds config parent entries l' →
      Unfolds config parent (entry :: entries) (l ++ l')

/-- An entry of the tree, with the sub-flows above it, the innermost first. -/
inductive Visits (config : Config) (root : List String) : List String → String → Prop
  | root {entry} : entry ∈ root → Visits config root [] entry
  | sub {path parent entry es} : Visits config root path parent → config.operators.contains parent = false →
      config.pipelineMap.find? parent = some es → entry ∈ es → Visits config root (parent :: path) entry

/-- No entry is unknown, and no sub-flow lies under itself. -/
def WellFormedTree (config : Config) (root : List String) : Prop :=
  ∀ path entry, Visits config root path entry → config.operators.contains entry = true ∨
    (∃ es, config.pipelineMap.find? entry = some es) ∧ entry ∉ path

/-! ## The expansion of `load.go` -/

/-- One entry, as `expandEntries` of Go takes it. -/
def goExpandEntry (quote : String → String) (config : Config) (parent : String) (visiting : List String)
    (expandSub : List String → String → List String → ExpandState → Except PineError ExpandState)
    (st : ExpandState) (entry : String) : Except PineError ExpandState :=
  if config.operators.contains entry then
    if entry ∈ st.seen then
      .error (.config ("operator " ++ quote entry ++ " referenced more than once in pipeline tree"))
    else .ok {
      sequence := st.sequence ++ [entry]
      mapping := st.mapping.insert entry parent
      seen := entry :: st.seen }
  else match config.pipelineMap.find? entry with
    | some entries =>
      if entry ∈ visiting then .error (.config ("cycle detected in sub-flow expansion: " ++ quote entry))
      else expandSub entries entry (entry :: visiting) st
    | none => .error (.config ("pipeline entry " ++ quote entry ++ " is neither an operator nor a sub-flow"))

def goExpandEntries (quote : String → String) (config : Config) : Nat → List String → String → List String →
    ExpandState → Except PineError ExpandState
  | 0, _, _, _, st => .ok st
  | depth + 1, entries, parent, visiting, st =>
    entries.foldlM (goExpandEntry quote config parent visiting (goExpandEntries quote config depth)) st

/-- `ExpandOperatorSequenceWithSubFlows`. Of several ambiguous names Go reports one it comes upon. -/
def goExpandOperatorSequenceWithSubFlows (quote : String → String) (config : Config) :
    Except PineError ExpandedSequence := do
  let rootEntries ← match config.pipelineGroup.find? "main" with
    | some entries => .ok entries
    | none => match config.pipelineGroup.entries with
      | [(_, entries)] => .ok entries
      | _ => .error (.config "pipeline_group must contain a \"main\" entry or exactly one entry")
  match config.operators.keys.find? config.pipelineMap.contains with
  | some name => .error (.config ("name " ++ quote name ++ " exists in both operators and pipeline_map"))
  | none => do
    let st ← goExpandEntries quote config (config.pipelineMap.entries.length + 1) rootEntries "" [] {}
    return ⟨st.sequence, st.mapping⟩

/-- No name is both an operator and a sub-flow; both loaders check it. -/
def DisjointNames (config : Config) : Prop :=
  ∀ name, config.operators.contains name = true → config.pipelineMap.contains name = false

variable {config : Config} {parent : String} {visiting entries : List String} {st : ExpandState}

/-! ## The recursion ends -/

theorem foldlM_cons_ok {α β ε : Type} {f : β → α → Except ε β} {a : α} {l : List α} {b b' : β} (h : f b a = .ok b') :
    (a :: l).foldlM f b = l.foldlM f b' := by
  rw [List.foldlM_cons, h]
  rfl

theorem foldlM_cons_error {α β ε : Type} {f : β → α → Except ε β} {a : α} {l : List α} {b : β} {e : ε}
    (h : f b a = .error e) : (a :: l).foldlM f b = .error e := by
  rw [List.foldlM_cons, h]
  rfl

/-- Every nested call adds a sub-flow to those under expansion, so the depth is enough. -/
theorem expandEntries_depth {depth : Nat} (hnodup : visiting.Nodup)
    (hsub : ∀ v ∈ visiting, v ∈ config.pipelineMap.keys)
    (hdepth : config.pipelineMap.entries.length < depth + visiting.length) :
    Expands config parent visiting entries st (expandEntries config depth entries parent visiting st) := by
  induction depth generalizing parent visiting entries st with
  | zero =>
    have hle := (List.subperm_of_subset hnodup hsub).length_le
    rw [SortedMap.keys, List.length_map] at hle
    omega
  | succ depth ih =>
    rw [expandEntries]
    induction entries generalizing st with
    | nil => exact .nil
    | cons entry entries ihe =>
      cases hop : config.operators.contains entry with
      | true =>
        by_cases hseen : entry ∈ st.seen
        · have hstep : expandEntry config parent visiting (expandEntries config depth) st entry =
              .error (.config ("operator \"" ++ entry ++ "\" referenced more than once in pipeline tree")) := by
            rw [expandEntry, if_pos hop, if_pos hseen]
          rw [foldlM_cons_error hstep]
          exact .twice hop hseen
        · have hstep : expandEntry config parent visiting (expandEntries config depth) st entry = .ok {
              sequence := st.sequence ++ [entry], mapping := st.mapping.insert entry parent,
              seen := entry :: st.seen } := by
            rw [expandEntry, if_pos hop, if_neg hseen]
          rw [foldlM_cons_ok hstep]
          exact .op hop hseen ihe
      | false =>
        have hstep : expandEntry config parent visiting (expandEntries config depth) st entry =
            match config.pipelineMap.find? entry with
            | some es =>
              if entry ∈ visiting then
                .error (.config ("cycle detected in sub-flow expansion: \"" ++ entry ++ "\""))
              else expandEntries config depth es entry (entry :: visiting) st
            | none => .error (.config ("pipeline entry \"" ++ entry ++ "\" is neither an operator nor a sub-flow")) := by
          rewrite [expandEntry, if_neg (by rw [hop]; exact Bool.false_ne_true)]
          rfl
        cases hfind : config.pipelineMap.find? entry with
        | none =>
          rw [hfind] at hstep
          rw [foldlM_cons_error hstep]
          exact .unknown hop hfind
        | some es =>
          rw [hfind] at hstep
          by_cases hvis : entry ∈ visiting
          · rw [foldlM_cons_error (hstep.trans (if_pos hvis))]
            exact .cycle hop hfind hvis
          · have hkey : entry ∈ config.pipelineMap.keys :=
              SortedMap.mem_keys.mpr (SortedMap.contains_iff.mpr ⟨es, hfind⟩)
            have hinner := @ih entry (entry :: visiting) es st (List.nodup_cons.mpr ⟨hvis, hnodup⟩)
              (List.forall_mem_cons.mpr ⟨hkey, hsub⟩) (by rw [List.length_cons]; omega)
            have hstep := hstep.trans (if_neg hvis)
            cases hr : expandEntries config depth es entry (entry :: visiting) st with
            | error e =>
              rw [hr] at hstep hinner
              rw [foldlM_cons_error hstep]
              exact .subFails hop hfind hvis hinner
            | ok st' =>
              rw [hr] at hstep hinner
              rw [foldlM_cons_ok hstep]
              exact .sub hop hfind hvis hinner ihe

theorem expandEntries_root (config : Config) (root : List String) :
    Expands config "" [] root {} (expandEntries config (config.pipelineMap.entries.length + 1) root "" [] {}) :=
  expandEntries_depth List.nodup_nil (by simp) (by simp)

/-! ## What it makes of the tree -/

/-- The state after the leaves `l`. -/
def ExpandState.add (st : ExpandState) (l : List (String × String)) : ExpandState where
  sequence := st.sequence ++ l.map Prod.fst
  mapping := l.foldl (fun m e => m.insert e.1 e.2) st.mapping
  seen := (l.map Prod.fst).reverse ++ st.seen

theorem ExpandState.add_append (st : ExpandState) (l l' : List (String × String)) :
    (st.add l).add l' = st.add (l ++ l') := by
  simp [ExpandState.add]

/-- An expansion that succeeds has walked the whole tree and met no operator twice. -/
theorem Expands.unfolds {r : Except PineError ExpandState} (h : Expands config parent visiting entries st r) :
    ∀ st', r = .ok st' → ∃ l, Unfolds config parent entries l ∧ st' = st.add l ∧
      (l.map Prod.fst).Nodup ∧ ∀ e ∈ l, e.1 ∉ st.seen := by
  induction h with
  | @nil parent visiting st =>
    rintro st' ⟨⟩
    exact ⟨[], .nil, by simp [ExpandState.add], List.nodup_nil, by simp⟩
  | @op parent visiting entry entries st r hop hseen _ ih =>
    intro st' hr
    obtain ⟨l, hl, rfl, hnodup, hfresh⟩ := ih st' hr
    refine ⟨(entry, parent) :: l, .op hop hl, by simp [ExpandState.add], ?_, ?_⟩
    · refine List.nodup_cons.mpr ⟨fun hm => ?_, hnodup⟩
      obtain ⟨e, he, rfl⟩ := List.mem_map.mp hm
      exact hfresh e he List.mem_cons_self
    · exact List.forall_mem_cons.mpr ⟨hseen, fun e he hm => hfresh e he (List.mem_cons_of_mem _ hm)⟩
  | @sub parent visiting entry entries st es st₁ r hop hfind _ _ _ ih₁ ih₂ =>
    intro st' hr
    obtain ⟨l, hl, rfl, hnodup, hfresh⟩ := ih₁ st₁ rfl
    obtain ⟨l', hl', rfl, hnodup', hfresh'⟩ := ih₂ st' hr
    refine ⟨l ++ l', .sub hop hfind hl hl', ExpandState.add_append .., ?_, ?_⟩
    · rw [List.map_append]
      refine List.nodup_append'.mpr ⟨hnodup, hnodup', fun x hx hx' => ?_⟩
      obtain ⟨e, he, rfl⟩ := List.mem_map.mp hx'
      exact hfresh' e he (List.mem_append_left _ (List.mem_reverse.mpr hx))
    · intro e he
      rcases List.mem_append.mp he with he | he
      · exact hfresh e he
      · exact fun hm => hfresh' e he (List.mem_append_right _ hm)
  | twice | subFails | cycle | unknown => exact nofun

/-- One sub-flow has an entry. -/
def RefersTo (config : Config) (s e : String) : Prop :=
  config.operators.contains s = false ∧ ∃ es, config.pipelineMap.find? s = some es ∧ e ∈ es

/-- Nothing unknown lies under the entry, and no sub-flow under itself. -/
inductive Grounded (config : Config) : String → Prop
  | op {e} : config.operators.contains e = true → Grounded config e
  | sub {e es} : config.operators.contains e = false → config.pipelineMap.find? e = some es →
      (∀ x ∈ es, Grounded config x) → Grounded config e

theorem Unfolds.grounded {l : List (String × String)} (h : Unfolds config parent entries l) :
    ∀ e ∈ entries, Grounded config e := by
  induction h with
  | nil => simp
  | op hop _ ih => exact List.forall_mem_cons.mpr ⟨.op hop, ih⟩
  | sub hop hfind _ _ ih ih' => exact List.forall_mem_cons.mpr ⟨.sub hop hfind ih, ih'⟩

/-- The tree has its leaves in one order. -/
theorem Unfolds.unique {l l' : List (String × String)} (h : Unfolds config parent entries l)
    (h' : Unfolds config parent entries l') : l = l' := by
  induction h generalizing l' with
  | nil =>
    cases h'
    rfl
  | op hop _ ih =>
    cases h' with
    | op _ h' => rw [ih h']
    | sub hop' => simp [hop] at hop'
  | sub hop hfind _ _ ih ih' =>
    cases h' with
    | op hop' => simp [hop] at hop'
    | sub _ hfind' h₁ h₂ =>
      rw [hfind] at hfind'
      cases hfind'
      rw [ih h₁, ih' h₂]

theorem unfolds_of_grounded (h : ∀ e ∈ entries, Grounded config e) : ∃ l, Unfolds config parent entries l := by
  have hone : ∀ e, Grounded config e → config.operators.contains e = false →
      ∀ es, config.pipelineMap.find? e = some es → ∃ l, Unfolds config e es l := by
    intro e he
    induction he with
    | op hop =>
      intro hnot
      rw [hop] at hnot
      cases hnot
    | @sub e es hop hfind hes ih =>
      intro _ es' hfind'
      rw [hfind] at hfind'
      cases hfind'
      clear hfind
      induction es with
      | nil => exact ⟨[], .nil⟩
      | cons x xs ihx =>
        obtain ⟨l, hl⟩ := ihx (fun y hy => hes y (List.mem_cons_of_mem _ hy)) fun y hy => ih y (List.mem_cons_of_mem _ hy)
        have hx := hes x List.mem_cons_self
        cases hopx : config.operators.contains x with
        | true => exact ⟨_, .op hopx hl⟩
        | false =>
          cases hx with
          | op hop' =>
            rw [hopx] at hop'
            cases hop'
          | sub _ hfindx _ =>
            obtain ⟨l', hl'⟩ := ih x List.mem_cons_self hopx _ hfindx
            exact ⟨_, .sub hopx hfindx hl' hl⟩
  induction entries with
  | nil => exact ⟨[], .nil⟩
  | cons x xs ihx =>
    obtain ⟨l, hl⟩ := ihx fun y hy => h y (List.mem_cons_of_mem _ hy)
    cases hopx : config.operators.contains x with
    | true => exact ⟨_, .op hopx hl⟩
    | false =>
      have hx := h x List.mem_cons_self
      cases id hx with
      | op hop' =>
        rw [hopx] at hop'
        cases hop'
      | sub _ hfindx _ =>
        obtain ⟨l', hl'⟩ := hone x hx hopx _ hfindx
        exact ⟨_, .sub hopx hfindx hl' hl⟩

/-- What lies under a grounded entry does not contain it. -/
theorem Grounded.irrefl {e : String} (h : Grounded config e) : ¬ TransGen (RefersTo config) e e := by
  have hacc : Acc (fun a b => RefersTo config b a) e := by
    induction h with
    | op hop =>
      refine ⟨_, fun y hy => ?_⟩
      have hnot := hy.1
      rw [hop] at hnot
      cases hnot
    | sub _ hfind _ ih =>
      refine ⟨_, fun y hy => ?_⟩
      obtain ⟨-, es', hfind', hmem⟩ := hy
      rw [hfind] at hfind'
      cases hfind'
      exact ih y hmem
  clear h
  intro hcycle
  induction hacc with
  | intro x _ ih =>
    obtain ⟨y, hxy, hyx⟩ := TransGen.head'_iff.mp hcycle
    exact ih y hxy (.tail' hyx hxy)

/-- The tree is walked to its end: what is under expansion lies above the entries, so none of it comes up again. -/
theorem Unfolds.expands {l : List (String × String)} (h : Unfolds config parent entries l) :
    ∀ visiting st, (∀ v ∈ visiting, ∀ e ∈ entries, TransGen (RefersTo config) v e) → (l.map Prod.fst).Nodup →
      (∀ e ∈ l, e.1 ∉ st.seen) → Expands config parent visiting entries st (.ok (st.add l)) := by
  induction h with
  | nil =>
    intro visiting st _ _ _
    simpa [ExpandState.add] using @Expands.nil config _ visiting st
  | @op parent entry entries l hop _ ih =>
    intro visiting st hvis hnodup hfresh
    obtain ⟨hnot, hnodup⟩ := List.nodup_cons.mp hnodup
    have hrest := ih visiting (st.add [(entry, parent)])
      (fun v hv e he => hvis v hv e (List.mem_cons_of_mem _ he)) hnodup fun e he hm => by
        rcases List.mem_cons.mp hm with heq | hm
        · exact hnot (heq ▸ List.mem_map_of_mem he)
        · exact hfresh e (List.mem_cons_of_mem _ he) hm
    rw [ExpandState.add_append] at hrest
    exact .op hop (hfresh _ List.mem_cons_self) hrest
  | @sub parent entry entries es l l' hop hfind hes _ ih ih' =>
    intro visiting st hvis hnodup hfresh
    rw [List.map_append] at hnodup
    have hground : Grounded config entry := .sub hop hfind hes.grounded
    have hnot : entry ∉ visiting := fun hm => hground.irrefl (hvis entry hm entry List.mem_cons_self)
    have hinner := ih (entry :: visiting) st (fun v hv e he => by
      have hstep : RefersTo config entry e := ⟨hop, es, hfind, he⟩
      rcases List.mem_cons.mp hv with rfl | hv
      · exact .single hstep
      · exact (hvis v hv entry List.mem_cons_self).tail hstep) hnodup.of_append_left
      fun e he => hfresh e (List.mem_append_left _ he)
    have hrest := ih' visiting (st.add l) (fun v hv e he => hvis v hv e (List.mem_cons_of_mem _ he))
      hnodup.of_append_right fun e he hm => by
        rcases List.mem_append.mp hm with hm | hm
        · exact List.disjoint_of_nodup_append hnodup (List.mem_reverse.mp hm) (List.mem_map_of_mem he)
        · exact hfresh e (List.mem_append_right _ he) hm
    rw [ExpandState.add_append] at hrest
    exact .sub hop hfind hnot hinner hrest

/-- The recursion has one outcome. -/
theorem Expands.unique {r r' : Except PineError ExpandState} (h : Expands config parent visiting entries st r)
    (h' : Expands config parent visiting entries st r') : r = r' := by
  induction h generalizing r' with
  | nil => cases h'; rfl
  | op hop hseen _ ih =>
    cases h' with
    | op _ _ h' => exact ih h'
    | twice _ hseen' => exact absurd hseen' hseen
    | sub hop' => simp [hop] at hop'
    | subFails hop' => simp [hop] at hop'
    | cycle hop' => simp [hop] at hop'
    | unknown hop' => simp [hop] at hop'
  | twice hop hseen =>
    cases h' with
    | op _ hseen' => exact absurd hseen hseen'
    | twice => rfl
    | sub hop' => simp [hop] at hop'
    | subFails hop' => simp [hop] at hop'
    | cycle hop' => simp [hop] at hop'
    | unknown hop' => simp [hop] at hop'
  | sub hop hfind hvis _ _ ih ih' =>
    cases h' with
    | op hop' => simp [hop] at hop'
    | twice hop' => simp [hop] at hop'
    | sub _ hfind' _ h₁ h₂ =>
      rw [hfind] at hfind'
      cases hfind'
      cases ih h₁
      exact ih' h₂
    | subFails _ hfind' _ h₁ =>
      rw [hfind] at hfind'
      cases hfind'
      cases ih h₁
    | cycle _ _ hvis' => exact absurd hvis' hvis
    | unknown _ hfind' => simp [hfind] at hfind'
  | subFails hop hfind hvis _ ih =>
    cases h' with
    | op hop' => simp [hop] at hop'
    | twice hop' => simp [hop] at hop'
    | sub _ hfind' _ h₁ =>
      rw [hfind] at hfind'
      cases hfind'
      cases ih h₁
    | subFails _ hfind' _ h₁ =>
      rw [hfind] at hfind'
      cases hfind'
      cases ih h₁
      rfl
    | cycle _ _ hvis' => exact absurd hvis' hvis
    | unknown _ hfind' => simp [hfind] at hfind'
  | cycle hop hfind hvis =>
    cases h' with
    | op hop' => simp [hop] at hop'
    | twice hop' => simp [hop] at hop'
    | sub _ _ hvis' => exact absurd hvis hvis'
    | subFails _ _ hvis' => exact absurd hvis hvis'
    | cycle => rfl
    | unknown _ hfind' => simp [hfind] at hfind'
  | unknown hop hfind =>
    cases h' with
    | op hop' => simp [hop] at hop'
    | twice hop' => simp [hop] at hop'
    | sub _ hfind' => simp [hfind] at hfind'
    | subFails _ hfind' => simp [hfind] at hfind'
    | cycle _ hfind' => simp [hfind] at hfind'
    | unknown => rfl

/-! ## Cyclic references -/

/-- What lies above an entry leads to it. -/
theorem Visits.refers {root path : List String} {e : String} (h : Visits config root path e) :
    ∀ v ∈ path, TransGen (RefersTo config) v e := by
  induction h with
  | root => simp
  | @sub path parent entry es _ hop hfind hmem ih =>
    have hstep : RefersTo config parent entry := ⟨hop, es, hfind, hmem⟩
    intro v hv
    rcases List.mem_cons.mp hv with rfl | hv
    · exact .single hstep
    · exact (ih v hv).tail hstep

theorem Visits.grounded {root path : List String} {e : String} (h : Visits config root path e)
    (hroot : ∀ e ∈ root, Grounded config e) : Grounded config e := by
  induction h with
  | root hmem => exact hroot _ hmem
  | sub _ hop hfind hmem ih =>
    cases ih with
    | op hop' => simp [hop] at hop'
    | sub _ hfind' hes =>
      rw [hfind] at hfind'
      cases hfind'
      exact hes _ hmem

/-- A path without repetition is no longer than there are sub-flows, so a tree without a cyclic reference is finite. -/
theorem grounded_of_wellFormed {root : List String} (h : WellFormedTree config root) :
    ∀ n path e, Visits config root path e → path.Nodup → (∀ v ∈ path, v ∈ config.pipelineMap.keys) →
      config.pipelineMap.keys.length < n + path.length → Grounded config e := by
  intro n
  induction n with
  | zero =>
    intro path e _ hnodup hsub hlt
    have hle := (List.subperm_of_subset hnodup hsub).length_le
    omega
  | succ n ih =>
    intro path e hvisit hnodup hsub hlt
    cases hop : config.operators.contains e with
    | true => exact .op hop
    | false =>
      rcases h path e hvisit with hop' | ⟨⟨es, hfind⟩, hnot⟩
      · simp [hop] at hop'
      · refine .sub hop hfind fun x hx => ?_
        have hkey : e ∈ config.pipelineMap.keys := SortedMap.mem_keys.mpr (SortedMap.contains_iff.mpr ⟨es, hfind⟩)
        exact ih (e :: path) x (.sub hvisit hop hfind hx) (List.nodup_cons.mpr ⟨hnot, hnodup⟩)
          (List.forall_mem_cons.mpr ⟨hkey, hsub⟩) (by rw [List.length_cons]; omega)

/-- The tree has leaves from left to right exactly when it is well formed. -/
theorem unfolds_iff_wellFormed (root : List String) :
    (∃ l, Unfolds config "" root l) ↔ WellFormedTree config root := by
  constructor
  · rintro ⟨l, hl⟩ path e hvisit
    have hground := hvisit.grounded hl.grounded
    cases hground with
    | op hop => exact Or.inl hop
    | sub hop hfind hes =>
      exact Or.inr ⟨⟨_, hfind⟩, fun hm => (Grounded.sub hop hfind hes).irrefl (hvisit.refers e hm)⟩
  · intro h
    exact unfolds_of_grounded fun e he =>
      grounded_of_wellFormed h (config.pipelineMap.keys.length + 1) [] e (.root he) List.nodup_nil (by simp) (by simp)

/-! ## The two engines -/

theorem expandOperatorSequence_eq (config : Config) :
    expandOperatorSequenceWithSubflows config =
      match mainGroup config with
      | some root => (fun st => ⟨st.sequence, st.mapping⟩) <$>
          expandEntries config (config.pipelineMap.entries.length + 1) root "" [] {}
      | none => .error (.config "pipeline_group must contain a \"main\" entry or exactly one entry") := by
  unfold expandOperatorSequenceWithSubflows mainGroup
  cases config.pipelineGroup.find? "main" with
  | some root => rfl
  | none =>
    match config.pipelineGroup.entries with
    | [(_, root)] => rfl
    | [] => rfl
    | _ :: _ :: _ => rfl

theorem lookup_foldl_insert (l : List (String × String)) (hnodup : (l.map Prod.fst).Nodup) (m : SortedMap String String)
    (k : String) : (l.foldl (fun m e => m.insert e.1 e.2) m).find? k = (l.lookup k).or (m.find? k) := by
  induction l generalizing m with
  | nil => rfl
  | cons e l ih =>
    obtain ⟨hnot, hnodup⟩ := List.nodup_cons.mp hnodup
    rw [List.foldl_cons, ih hnodup, SortedMap.find?_insert, SortedMap.lookup_cons]
    by_cases hk : k = e.1
    · subst hk
      have hnone : l.lookup e.1 = none := by
        rw [List.lookup_eq_none_iff]
        intro p hp
        simp only [bne_iff_ne, ne_eq]
        exact fun heq => hnot (heq ▸ List.mem_map_of_mem hp)
      simp [hnone]
    · simp [hk]

/-- The result on a tree that is walked to its end. -/
theorem expandOperatorSequence_eq_ok (config : Config) (expanded : ExpandedSequence) :
    expandOperatorSequenceWithSubflows config = .ok expanded ↔
      ∃ root l, mainGroup config = some root ∧ Unfolds config "" root l ∧ (l.map Prod.fst).Nodup ∧
        expanded.sequence = l.map Prod.fst ∧ ∀ op, expanded.opToSubflow.find? op = l.lookup op := by
  rw [expandOperatorSequence_eq]
  cases mainGroup config with
  | none => simp
  | some root =>
    have hrun := expandEntries_root config root
    simp only [Except.map_eq_ok]
    constructor
    · rintro ⟨st, hst, rfl⟩
      rw [hst] at hrun
      obtain ⟨l, hl, rfl, hnodup, -⟩ := hrun.unfolds st rfl
      refine ⟨root, l, rfl, hl, hnodup, by simp [ExpandState.add], fun op => ?_⟩
      simp [ExpandState.add, lookup_foldl_insert l hnodup]
    · rintro ⟨root, l, ⟨⟩, hl, hnodup, hsequence, hmapping⟩
      have hok := hl.expands [] {} (by simp) hnodup (by simp)
      refine ⟨_, hrun.unique hok, ?_⟩
      obtain ⟨sequence, mapping⟩ := expanded
      have hmap : (({} : ExpandState).add l).mapping = mapping := by
        refine SortedMap.ext_find? fun op => ?_
        rw [hmapping op]
        simp [ExpandState.add, lookup_foldl_insert l hnodup]
      rw [hmap, ExpandedSequence.mk.injEq]
      exact ⟨by simpa [ExpandState.add] using hsequence.symm, rfl⟩

theorem foldlM_toOption {α β ε : Type} {f g : β → α → Except ε β} (h : ∀ b a, (f b a).toOption = (g b a).toOption)
    (l : List α) (b : β) : (l.foldlM f b).toOption = (l.foldlM g b).toOption := by
  induction l generalizing b with
  | nil => rfl
  | cons a l ih =>
    rw [List.foldlM_cons, List.foldlM_cons]
    have ha := h b a
    cases hf : f b a with
    | error e =>
      cases hg : g b a with
      | error e' => rfl
      | ok b' => simp [hf, hg, Except.toOption] at ha
    | ok b₁ =>
      cases hg : g b a with
      | error e' => simp [hf, hg, Except.toOption] at ha
      | ok b₂ =>
        simp only [hf, hg, Except.toOption, Option.some.injEq] at ha
        subst ha
        exact ih b₁

/-- The engines quote the names in their messages, and differ in nothing else. -/
theorem goExpandEntries_toOption (quote : String → String) (config : Config) (depth : Nat) :
    ∀ entries parent visiting st, (goExpandEntries quote config depth entries parent visiting st).toOption =
      (expandEntries config depth entries parent visiting st).toOption := by
  induction depth with
  | zero => exact fun _ _ _ _ => rfl
  | succ depth ih =>
    intro entries parent visiting st
    refine foldlM_toOption (fun st entry => ?_) entries st
    unfold goExpandEntry expandEntry
    by_cases hop : config.operators.contains entry = true
    · rw [if_pos hop, if_pos hop]
      split_ifs <;> rfl
    · rw [if_neg hop, if_neg hop]
      cases config.pipelineMap.find? entry with
      | none => rfl
      | some es =>
        by_cases hvis : entry ∈ visiting
        · simp only [if_pos hvis]
          rfl
        · simp only [if_neg hvis]
          exact ih es entry (entry :: visiting) st

/-- `"` around a name that needs no escape. -/
def plainQuote (s : String) : String := "\"" ++ s ++ "\""

theorem goExpandEntries_plain (config : Config) (depth : Nat) :
    goExpandEntries plainQuote config depth = expandEntries config depth := by
  induction depth with
  | zero => rfl
  | succ depth ih =>
    have hentry : ∀ parent visiting, goExpandEntry plainQuote config parent visiting = expandEntry config parent visiting := by
      intro parent visiting
      funext expandSub st entry
      have htwice : "operator " ++ plainQuote entry ++ " referenced more than once in pipeline tree" =
          "operator \"" ++ entry ++ "\" referenced more than once in pipeline tree" :=
        String.toList_injective (by simp [plainQuote])
      have hcycle : "cycle detected in sub-flow expansion: " ++ plainQuote entry =
          "cycle detected in sub-flow expansion: \"" ++ entry ++ "\"" :=
        String.toList_injective (by simp [plainQuote])
      have hunknown : "pipeline entry " ++ plainQuote entry ++ " is neither an operator nor a sub-flow" =
          "pipeline entry \"" ++ entry ++ "\" is neither an operator nor a sub-flow" :=
        String.toList_injective (by simp [plainQuote])
      unfold goExpandEntry expandEntry
      rewrite [htwice, hcycle, hunknown]
      rfl
    funext entries parent visiting st
    rw [goExpandEntries, expandEntries, ih, hentry]

theorem goExpand_eq (quote : String → String) (config : Config) (hdisjoint : DisjointNames config) :
    goExpandOperatorSequenceWithSubFlows quote config =
      match mainGroup config with
      | some root => (fun st => ⟨st.sequence, st.mapping⟩) <$>
          goExpandEntries quote config (config.pipelineMap.entries.length + 1) root "" [] {}
      | none => .error (.config "pipeline_group must contain a \"main\" entry or exactly one entry") := by
  have hnone : config.operators.keys.find? config.pipelineMap.contains = none := by
    rw [List.find?_eq_none]
    intro name hname
    rw [hdisjoint name (SortedMap.mem_keys.mp hname)]
    exact Bool.false_ne_true
  unfold goExpandOperatorSequenceWithSubFlows mainGroup
  rw [hnone]
  cases config.pipelineGroup.find? "main" with
  | some root => rfl
  | none =>
    match config.pipelineGroup.entries with
    | [(_, root)] => rfl
    | [] => rfl
    | _ :: _ :: _ => rfl

/-- The expansion ends on every configuration; it succeeds on a tree without cyclic references, unknown names and
repeated operators, and gives its leaves; and the two engines agree. -/
theorem expansion_unfolds (quote : String → String) (config : Config) :
    (∀ root, ∃! r, Expands config "" [] root {} r) ∧
    (∀ root r, mainGroup config = some root → Expands config "" [] root {} r →
      expandOperatorSequenceWithSubflows config = (fun st => ⟨st.sequence, st.mapping⟩) <$> r) ∧
    (∀ root, (∃ l, Unfolds config "" root l) ↔ WellFormedTree config root) ∧
    (∀ expanded, expandOperatorSequenceWithSubflows config = .ok expanded ↔
      ∃ root l, mainGroup config = some root ∧ Unfolds config "" root l ∧ (l.map Prod.fst).Nodup ∧
        expanded.sequence = l.map Prod.fst ∧ ∀ op, expanded.opToSubflow.find? op = l.lookup op) ∧
    (DisjointNames config →
      (goExpandOperatorSequenceWithSubFlows quote config).toOption =
        (expandOperatorSequenceWithSubflows config).toOption ∧
      goExpandOperatorSequenceWithSubFlows plainQuote config = expandOperatorSequenceWithSubflows config) := by
  refine ⟨fun root => ⟨_, expandEntries_root config root, fun r hr => hr.unique (expandEntries_root config root)⟩,
    fun root r hroot hr => ?_, unfolds_iff_wellFormed, expandOperatorSequence_eq_ok config, fun hdisjoint => ⟨?_, ?_⟩⟩
  · rw [expandOperatorSequence_eq, hroot, hr.unique (expandEntries_root config root)]
  · rw [goExpand_eq quote config hdisjoint, expandOperatorSequence_eq]
    cases mainGroup config with
    | none => rfl
    | some root =>
      have heq := goExpandEntries_toOption quote config (config.pipelineMap.entries.length + 1) root "" [] {}
      simp only
      revert heq
      cases goExpandEntries quote config (config.pipelineMap.entries.length + 1) root "" [] {} <;>
        cases expandEntries config (config.pipelineMap.entries.length + 1) root "" [] {} <;>
        simp [Except.toOption, Functor.map, Except.map]
      rintro rfl
      exact ⟨rfl, rfl⟩
  · rw [goExpand_eq plainQuote config hdisjoint, expandOperatorSequence_eq, goExpandEntries_plain]

/-- `main` has the operators `a` and `b` around a sub-flow with `c` and, twice, a sub-flow that is empty. -/
theorem expansion_unfolds_shared :
    let config : Config := {
      operators := SortedMap.ofList [("a", {}), ("b", {}), ("c", {})]
      pipelineMap := SortedMap.ofList [("sub", ["empty", "c", "empty"]), ("empty", [])]
      pipelineGroup := SortedMap.ofList [("main", ["a", "sub", "b"])] }
    (goExpandOperatorSequenceWithSubFlows plainQuote config).toOption.map (·.sequence) = some ["a", "c", "b"] := by
  intro config
  have hdisjoint : DisjointNames config := by
    intro name hname
    have hkey : name ∈ ["a", "b", "c"] := SortedMap.contains_ofList.mp hname
    simp only [List.mem_cons, List.not_mem_nil, or_false] at hkey
    rcases hkey with rfl | rfl | rfl <;> decide
  rw [((expansion_unfolds plainQuote config).2.2.2.2 hdisjoint).2]
  decide

end Pineapple
