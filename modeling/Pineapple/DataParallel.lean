import Pineapple.SequentialRun

/-! # Shards do not show in the result (`parallel_execute`)

The shards of an operator stand side by side and cover the items in order. Where the operator treats every item by
itself, the merged output has, for each field, the writes of one execution on the whole frame. So `data_parallel` decides
how the work is cut and nothing that is left. -/

namespace Pineapple
open Relation

variable {σ π : Type}

/-! ## Windows side by side -/

theorem flatMap_windowsFrom (cursor : Nat) (sizes : List Nat) :
    (windowsFrom cursor sizes).flatMap (fun w => List.range' w.offset w.count) = List.range' cursor sizes.sum := by
  induction sizes generalizing cursor with
  | nil => rfl
  | cons size rest ih => rw [windowsFrom, List.flatMap_cons, ih, List.sum_cons, List.range'_append_1]

theorem bound_windowsFrom {cursor : Nat} {sizes : List Nat} {w : Window} (h : w ∈ windowsFrom cursor sizes) :
    w.offset + w.count ≤ cursor + sizes.sum := by
  induction sizes generalizing cursor with
  | nil => exact absurd h List.not_mem_nil
  | cons size rest ih =>
    rw [List.sum_cons, ← Nat.add_assoc]
    rcases List.mem_cons.mp h with rfl | h
    · exact Nat.le_add_right _ _
    · exact ih h

/-- The sizes differ by one at most, the larger ones first, and make up the whole. -/
theorem sum_shardSizes {n total : Nat} (hn : 0 < n) : (shardSizes n total).sum = total := by
  have hsum : ∀ m ≤ n, ((List.range m).map fun i => total / n + if i < total % n then 1 else 0).sum =
      m * (total / n) + min m (total % n) := by
    intro m hm
    induction m with
    | zero => simp
    | succ m ih =>
      rw [List.range_succ, List.map_append, List.sum_append, ih (Nat.le_of_succ_le hm), List.map_singleton,
        List.sum_singleton, Nat.succ_mul]
      split <;> omega
  have hmod := Nat.mod_lt total hn
  have hdiv := Nat.div_add_mod total n
  unfold shardSizes
  rw [hsum n le_rfl, Nat.min_eq_right hmod.le]
  exact hdiv

/-- The windows of the shards cover the items, one after the other. -/
theorem flatMap_shardWindows {n total : Nat} (hn : 0 < n) (ht : total ≠ 0) :
    (shardWindows n total).flatMap (fun w => List.range' w.offset w.count) = List.range total := by
  have hpos : 0 < min n total := Nat.lt_min.mpr ⟨hn, Nat.pos_of_ne_zero ht⟩
  unfold shardWindows
  rw [flatMap_windowsFrom, sum_shardSizes hpos, List.range_eq_range']

theorem bound_shardWindows {n total : Nat} (hn : 0 < n) (ht : total ≠ 0) {w : Window} (h : w ∈ shardWindows n total) :
    w.offset + w.count ≤ total := by
  have hpos : 0 < min n total := Nat.lt_min.mpr ⟨hn, Nat.pos_of_ne_zero ht⟩
  have hbound := bound_windowsFrom h
  rwa [sum_shardSizes hpos, Nat.zero_add] at hbound

/-- A window view shows the items of its span. -/
structure Storage.Windowed (S : Storage σ) : Prop where
  whole : ∀ a : FrameState σ, (S.view a none).itemCount = S.store.rowCount a.items
  itemCount : ∀ (a : FrameState σ) w, (S.view a (some w)).itemCount = w.count
  item : ∀ (a : FrameState σ) w i f, i < w.count → w.offset + w.count ≤ S.store.rowCount a.items →
    (S.view a (some w)).item i f = (S.view a none).item (w.offset + i) f

theorem RowFrame.windowed : RowFrame.storage.Windowed where
  whole _ := rfl
  itemCount _ _ := rfl
  item a w i f hi _ := by
    show RowFrame.item a (some w) i f = RowFrame.item a none (w.offset + i) f
    unfold RowFrame.item RowFrame.rowAt?
    dsimp only
    rw [if_neg (Nat.not_le.mpr hi)]

theorem ColumnFrame.windowed : ColumnFrame.storage.Windowed where
  whole _ := rfl
  itemCount _ _ := rfl
  item a w i f hi hw := by
    have hw : w.offset + w.count ≤ a.items.rowCount := hw
    show ColumnFrame.item a (some w) i f = ColumnFrame.item a none (w.offset + i) f
    unfold ColumnFrame.item ColumnFrame.rowIndex?
    dsimp only
    rw [if_neg (Nat.not_le.mpr hi), if_neg (by omega)]

/-! ## Operators that treat every item by itself -/

/-- The values an operator writes to a field of an item, from the resolved parameters, the common fields and the item. -/
abbrev ItemRule := Row → (common : String → Variant) → (item : String → Variant) → String → List Variant

/-- What the rule writes to the field `f` of the items `is`, counted from `offset`. -/
def ItemRule.writes (rule : ItemRule) (resolved : Row) (input : OperatorInput) (f : String) (offset : Nat)
    (is : List Nat) : List ItemWrite :=
  is.flatMap fun i => (rule resolved input.common (input.item i) f).map fun v => ⟨((offset + i : Nat) : Int), f, v⟩

/-- The output writes items and nothing else. -/
structure OperatorOutput.ItemsOnly (out : OperatorOutput) : Prop where
  commonWrites : out.commonWrites = ∅
  columnWrites : out.columnWrites = []
  addedItems : out.addedItems = []
  removedItems : out.removedItems = ∅
  itemOrder : out.itemOrder = none

/-- The writes to the field, in their order. -/
def OperatorOutput.fieldWrites (out : OperatorOutput) (f : String) : List ItemWrite :=
  out.itemWrites.filter fun w => w.field = f

/-- The output is what the rule makes of the input: it may go field by field or item by item. -/
structure ItemRule.Gives (rule : ItemRule) (resolved : Row) (input : OperatorInput) (out : OperatorOutput) : Prop where
  itemsOnly : out.ItemsOnly
  fieldWrites : ∀ f, out.fieldWrites f = rule.writes resolved input f 0 (List.range input.itemCount)

/-- An operator's execution follows the rule whenever it returns. -/
def RunEnv.Itemwise (env : RunEnv σ) (op : OperatorConfig) (rule : ItemRule) : Prop :=
  ∀ input resolved out, env.exec op input resolved ⟨out, none⟩ → rule.Gives resolved input out

/-! ## Merging -/

theorem mergeShardOutput_itemsOnly {op : String} {offset : Nat} {src dst : OperatorOutput} (hsrc : src.ItemsOnly)
    (hdst : dst.ItemsOnly) : ∃ out, mergeShardOutput op offset src dst = .ok out ∧ out.ItemsOnly ∧
      out.itemWrites = dst.itemWrites ++ src.itemWrites.map fun w => { w with index := w.index + offset } := by
  have hcalls : (src.calls .addItem || src.calls .setItemOrder || src.calls .setCommon) = false := by
    unfold OperatorOutput.calls
    rw [hsrc.addedItems, hsrc.itemOrder, hsrc.commonWrites]
    rfl
  unfold mergeShardOutput
  rw [hcalls, if_neg Bool.false_ne_true, hsrc.columnWrites, hsrc.removedItems]
  refine ⟨_, rfl, ⟨hdst.commonWrites, hdst.columnWrites, hdst.addedItems, hdst.removedItems, hdst.itemOrder⟩, ?_⟩
  show dst.itemWrites ++ _ ++ [] = _
  rw [List.append_nil]

theorem mergeShards_itemsOnly {op : String} {outs : List (Window × OperatorOutput)} (h : ∀ e ∈ outs, e.2.ItemsOnly) :
    ∃ out, mergeShards op outs = .ok out ∧ out.ItemsOnly ∧ out.itemWrites =
      outs.flatMap fun e => e.2.itemWrites.map fun w => { w with index := w.index + e.1.offset } := by
  have hfrom : ∀ dst : OperatorOutput, dst.ItemsOnly → ∃ out,
      Outcome.forEach (fun e => mergeShardOutput op e.1.offset e.2) outs dst = .ok out ∧ out.ItemsOnly ∧
        out.itemWrites = dst.itemWrites ++
          outs.flatMap fun e => e.2.itemWrites.map fun w => { w with index := w.index + e.1.offset } := by
    induction outs with
    | nil => exact fun dst hdst => ⟨dst, rfl, hdst, (List.append_nil _).symm⟩
    | cons e rest ih =>
      intro dst hdst
      obtain ⟨mid, hmid, hmidOnly, hmidWrites⟩ := @mergeShardOutput_itemsOnly op e.1.offset _ _
        (h e List.mem_cons_self) hdst
      obtain ⟨out, hout, houtOnly, houtWrites⟩ := ih (fun x hx => h x (List.mem_cons_of_mem _ hx)) mid hmidOnly
      refine ⟨out, ?_, houtOnly, ?_⟩
      · rw [Outcome.forEach, hmid]
        exact hout
      · rw [houtWrites, hmidWrites, List.flatMap_cons, List.append_assoc]
  exact hfrom {} ⟨rfl, rfl, rfl, rfl, rfl⟩

section Rule
variable {env : RunEnv σ} {part : String → σ → π} {p : NodePlan} {F : FrameState σ} {rule : ItemRule}

/-- The input of a dispatch is the view with the specification. -/
theorem RunEnv.Dispatches.exec_view {resolved : Row} {w : Option Window} {out : OperatorOutput}
    (h : env.Dispatches p resolved F w (.ok out)) : env.exec p.op ⟨env.storage.view F w, p.spec⟩ resolved ⟨out, none⟩ := by
  cases h with
  | returns hbuild hexec =>
    unfold buildOperatorInput at hbuild
    split at hbuild
    · cases hbuild
    · obtain rfl := Except.ok.inj hbuild
      exact hexec

/-- A shard's writes, moved to where its window stands, are the rule's on the whole frame. -/
theorem ItemRule.writes_window (hS : env.storage.Fieldwise part) (hW : env.storage.Windowed) (resolved : Row) {w : Window}
    (hw : w.offset + w.count ≤ env.storage.store.rowCount F.items) (f : String) :
    (rule.writes resolved ⟨env.storage.view F (some w), p.spec⟩ f 0 (List.range w.count)).map
        (fun iw => { iw with index := iw.index + w.offset }) =
      rule.writes resolved ⟨env.storage.view F none, p.spec⟩ f 0 (List.range' w.offset w.count) := by
  have hcommon : (⟨env.storage.view F (some w), p.spec⟩ : OperatorInput).common =
      (⟨env.storage.view F none, p.spec⟩ : OperatorInput).common := by
    funext g
    unfold OperatorInput.common
    dsimp only
    rw [hS.common, hS.common]
  have hitem : ∀ i < w.count, (⟨env.storage.view F (some w), p.spec⟩ : OperatorInput).item i =
      (⟨env.storage.view F none, p.spec⟩ : OperatorInput).item (w.offset + i) := by
    intro i hi
    funext g
    have hlt : ¬ env.storage.store.rowCount F.items ≤ w.offset + i := by omega
    unfold OperatorInput.item OperatorInput.itemCount
    dsimp only
    rw [hW.itemCount, hW.whole, if_neg (Nat.not_le.mpr hi), if_neg hlt, hW.item F w i g hi hw]
  unfold ItemRule.writes
  rw [List.map_flatMap, List.range'_eq_map_range, List.flatMap_map]
  refine List.flatMap_congr fun i hi => ?_
  rw [hcommon, hitem i (List.mem_range.mp hi), List.map_map]
  refine List.map_congr_left fun v _ => ?_
  show ItemWrite.mk (((0 + i : Nat) : Int) + (w.offset : Int)) f v = ⟨((0 + (w.offset + i) : Nat) : Int), f, v⟩
  congr 1
  omega

/-- An output a node makes of a frame, with shards or without: for each field the rule's writes on the whole frame. -/
theorem RunEnv.Makes.fieldWrites (hS : env.storage.Fieldwise part) (hW : env.storage.Windowed)
    (hrule : env.Itemwise p.op rule) {out : OperatorOutput} (h : env.Makes p F out) :
    ∃ resolved, (env.text.resolveTemplatedParams p.template ∅).run F.common.find? = .ok resolved ∧
      rule.Gives resolved ⟨env.storage.view F none, p.spec⟩ out := by
  cases h with
  | serial _ hresolve _ hd => exact ⟨_, hresolve, hrule _ _ _ hd.exec_view⟩
  | @parallel resolved outs _ _ hresolve hdp hne hfst hds hm =>
    refine ⟨resolved, hresolve, ?_⟩
    have hcount := hW.whole F
    rw [hcount] at hne hfst
    have hpos : 0 < p.op.dataParallel.toNat := by omega
    have hgives : ∀ e ∈ outs, rule.Gives resolved ⟨env.storage.view F (some e.1), p.spec⟩ e.2 := fun e he =>
      hrule _ _ _ (hds e he).exec_view
    have hwindow : ∀ e ∈ outs, e.1.offset + e.1.count ≤ env.storage.store.rowCount F.items := by
      intro e he
      refine bound_shardWindows hpos hne ?_
      rw [← hfst]
      exact List.mem_map_of_mem he
    obtain ⟨merged, hmerged, honly, hwrites⟩ := @mergeShards_itemsOnly p.op.name outs fun e he => (hgives e he).itemsOnly
    obtain rfl : merged = out := Outcome.ok.inj (hmerged.symm.trans hm)
    refine ⟨honly, fun f => ?_⟩
    show merged.itemWrites.filter _ = _
    have hfilter : ∀ e ∈ outs, (e.2.itemWrites.map fun iw => { iw with index := iw.index + (e.1.offset : Int) }).filter
        (fun iw => iw.field = f) = rule.writes resolved ⟨env.storage.view F none, p.spec⟩ f 0
          (List.range' e.1.offset e.1.count) := by
      intro e he
      have hown := (hgives e he).fieldWrites f
      unfold OperatorOutput.fieldWrites OperatorInput.itemCount at hown
      dsimp only at hown
      rw [hW.itemCount] at hown
      rw [List.filter_map, ← ItemRule.writes_window hS hW resolved (hwindow e he) f, ← hown]
      rfl
    have hrange : List.range (⟨env.storage.view F none, p.spec⟩ : OperatorInput).itemCount =
        outs.flatMap fun e => List.range' e.1.offset e.1.count := by
      show List.range (env.storage.view F none).itemCount = _
      rw [hcount, ← flatMap_shardWindows hpos hne, ← hfst, List.flatMap_map]
    rw [hwrites, List.filter_flatMap, hrange]
    unfold ItemRule.writes
    rw [List.flatMap_assoc]
    exact List.flatMap_congr hfilter

end Rule

/-! ## Applying -/

section Apply
variable {S : Storage σ} {part : String → σ → π} {out out' : OperatorOutput} {op : String} {isRecall : Bool}
  {s s' t t' : FrameState σ}

/-- What an output of item writes leaves. -/
theorem apply_itemsOnly (h : out.ItemsOnly) (hok : applyOutputWith S.store out op isRecall s = .ok s') :
    s'.common = s.common ∧ s'.items = S.store.writeFields out.itemWrites s.items := by
  obtain ⟨hcommon, hitems⟩ := Storage.Fieldwise.apply_ok hok
  have hnone : out.writeError op (S.store.rowCount s.items) = none := by
    have hends := applyOutputWith_ends S.lawful out op isRecall s
    rw [hok] at hends
    cases hends with
    | ok hw => exact hw
  have hcommonNone : out.commonWrites.entries = [] := by
    rw [h.commonWrites]
    rfl
  have hwrites : out.itemWrites.findSome? (itemWriteError op (S.store.rowCount s.items)) = none := by
    unfold OperatorOutput.writeError at hnone
    rw [hcommonNone, h.columnWrites] at hnone
    simpa using hnone
  have happlied : out.appliedItemWrites op (S.store.rowCount s.items) = out.itemWrites := by
    unfold OperatorOutput.appliedItemWrites
    rw [hcommonNone]
    exact List.takeWhile_eq_self_iff.mpr fun w hw => by
      rw [List.findSome?_eq_none_iff.mp hwrites w hw]
      rfl
  constructor
  · rw [hcommon]
    unfold OperatorOutput.appliedCommonWrites
    rw [hcommonNone]
    rfl
  · have hcolumns : out.appliedColumnWrites op (S.store.rowCount s.items) = [] := by
      unfold OperatorOutput.appliedColumnWrites
      rw [h.columnWrites]
      split <;> rfl
    have hremoved : out.removed.isEmpty = true := by
      unfold OperatorOutput.removed
      rw [h.removedItems]
      rfl
    rw [hitems]
    unfold ItemStore.added ItemStore.reordered ItemStore.removedFrom ItemStore.written
    rw [h.addedItems, h.itemOrder, if_pos hremoved, hcolumns, happlied]
    rfl

/-- Writes to one field depend on its part, -/
theorem Storage.Fieldwise.part_foldl (hS : S.Fieldwise part) (f : String) (ws : List ItemWrite) {a b : σ}
    (h : part f a = part f b) (hws : ∀ w ∈ ws, w.field = f) :
    part f (ws.foldl (fun s w => S.store.writeField w.index.toNat w.field w.value s) a) =
      part f (ws.foldl (fun s w => S.store.writeField w.index.toNat w.field w.value s) b) := by
  induction ws generalizing a b with
  | nil => exact h
  | cons w ws ih =>
    obtain rfl := hws w List.mem_cons_self
    exact ih (hS.writeField _ _ h) fun v hv => hws v (List.mem_cons_of_mem _ hv)

/-- and of all writes only those to the field count. -/
theorem Storage.Fieldwise.part_writeFields_filter (hS : S.Fieldwise part) (f : String) (ws : List ItemWrite) (items : σ) :
    part f (S.store.writeFields ws items) = part f (S.store.writeFields (ws.filter fun w => w.field = f) items) := by
  induction ws generalizing items with
  | nil => rfl
  | cons w ws ih =>
    unfold ItemStore.writeFields at ih ⊢
    by_cases hw : w.field = f
    · rw [List.filter_cons_of_pos (by simpa using hw), List.foldl_cons, List.foldl_cons]
      exact ih _
    · rw [List.filter_cons_of_neg (by simpa using hw), List.foldl_cons, ih]
      exact hS.part_foldl f _ (hS.writeField_ne _ _ _ hw) fun w hw => of_decide_eq_true (List.mem_filter.mp hw).2

/-- Outputs that write the same to each field leave the same everywhere. -/
theorem apply_fieldWrites (hS : S.Fieldwise part) (h : out.ItemsOnly) (h' : out'.ItemsOnly)
    (hwrites : ∀ f, out.fieldWrites f = out'.fieldWrites f) (hs : applyOutputWith S.store out op isRecall s = .ok s')
    (ht : applyOutputWith S.store out' op isRecall t = .ok t') (hsame : ∀ x, FrameState.SameAt part x s t) (x : Place) :
    FrameState.SameAt part x s' t' := by
  obtain ⟨hcommon, hitems⟩ := apply_itemsOnly h hs
  obtain ⟨hcommon', hitems'⟩ := apply_itemsOnly h' ht
  cases x with
  | common f =>
    show s'.common.find? f = t'.common.find? f
    rw [hcommon, hcommon']
    exact hsame (.common f)
  | item f =>
    show part f s'.items = part f t'.items
    have hf := hwrites f
    unfold OperatorOutput.fieldWrites at hf
    rw [hitems, hitems', hS.part_writeFields_filter, hS.part_writeFields_filter f out'.itemWrites, hf]
    exact hS.part_foldl f _ (hsame (.item f)) fun w hw => of_decide_eq_true (List.mem_filter.mp hw).2

end Apply

/-! ## Other numbers of shards -/

/-- The same operators with other `data_parallel`. -/
def RunEnv.withParallel (env : RunEnv σ) (k : Nat → Int) : RunEnv σ :=
  { env with node := fun v => { env.node v with op := { (env.node v).op with dataParallel := k v } } }

section Parallel
variable {env : RunEnv σ} {part : String → σ → π} {c : Nat → OperatorConfig} {n : Nat} {k : Nat → Int}

/-- The declarations stay. -/
theorem RunEnv.Declared.withParallel {v : Nat} {d : OperatorConfig} (h : env.Declared d (env.node v))
    (hblind : ∀ op m, env.exec { op with dataParallel := m } = env.exec op) (hrows : 1 < k v → d.TouchesRows) :
    (env.withParallel k).Declared d ((env.withParallel k).node v) where
  skip := h.skip
  template := h.template
  strictCommon := h.strictCommon
  nullableCommon := h.nullableCommon
  strictItem := h.strictItem
  nullableItem := h.nullableItem
  sharded := hrows
  covers := h.covers
  reads := by
    show ∀ a b resolved att, OperatorInput.AgreesOn d a b → env.exec { (env.node v).op with dataParallel := k v } a resolved att →
      env.exec { (env.node v).op with dataParallel := k v } b resolved att
    rw [hblind]
    exact h.reads
  once := by
    show ∀ a resolved att att', env.exec { (env.node v).op with dataParallel := k v } a resolved att →
      env.exec { (env.node v).op with dataParallel := k v } a resolved att' → att = att'
    rw [hblind]
    exact h.once

/-- The turn of a node, with whatever number of shards. -/
theorem turn_same (hS : env.storage.Fieldwise part) (hW : env.storage.Windowed) {v : Nat} {d : OperatorConfig}
    (hdecl : env.Declared d (env.node v)) (hblind : ∀ op m, env.exec { op with dataParallel := m } = env.exec op)
    (hitem : 1 < (env.node v).op.dataParallel ∨ 1 < k v → ∃ rule, env.Itemwise (env.node v).op rule)
    {f f' g g' : FrameState σ} {e e' : Entry} (h : env.Turn v f e f') (h' : (env.withParallel k).Turn v g e' g')
    (hsame : ∀ x, FrameState.SameAt part x f g) (x : Place) : FrameState.SameAt part x f' g' := by
  have halike := hdecl.alike hS fun x _ => hsame x
  cases h with
  | skipped hs =>
    cases h' with
    | skipped _ => exact hsame x
    | applied hm _ =>
      have hnot := RunEnv.Makes.not_skipped hm
      have hskip : (shouldSkip (env.node v).op.skip).run g.common.find? = true := halike.skip.symm.trans hs
      exact absurd (hskip.symm.trans hnot) nofun
  | @applied out _ hm hd =>
    cases h' with
    | skipped hs' =>
      have hnot := RunEnv.Makes.not_skipped hm
      have hskip : (shouldSkip (env.node v).op.skip).run f.common.find? = true := halike.skip.trans hs'
      exact absurd (hskip.symm.trans hnot) nofun
    | @applied out' _ hm' hd' =>
      have happly := (RunEnv.deliver_ok hd).2.2
      have happly' := (RunEnv.deliver_ok hd').2.2
      obtain ⟨-, hview⟩ := hS.view_congr hsame
      by_cases hshards : 1 < (env.node v).op.dataParallel ∨ 1 < k v
      · obtain ⟨rule, hrule⟩ := hitem hshards
        have hrule' : (env.withParallel k).Itemwise { (env.node v).op with dataParallel := k v } rule := by
          unfold RunEnv.Itemwise
          show ∀ input resolved out, env.exec { (env.node v).op with dataParallel := k v } input resolved ⟨out, none⟩ → _
          rw [hblind]
          exact hrule
        obtain ⟨resolved, hresolve, hgives⟩ := hm.fieldWrites hS hW hrule
        obtain ⟨resolved', hresolve', hgives'⟩ := @RunEnv.Makes.fieldWrites _ _ (env.withParallel k) _ _ _ _ hS hW hrule' _ hm'
        have hresolved : resolved = resolved' := by
          have heq := halike.resolve
          rw [hresolve] at heq
          exact Except.ok.inj (heq.trans hresolve')
        refine apply_fieldWrites hS hgives.itemsOnly hgives'.itemsOnly (fun f => ?_) happly happly' hsame x
        rw [hgives.fieldWrites, hgives'.fieldWrites, hresolved, hview none]
        rfl
      · obtain ⟨hone, hone'⟩ := not_or.mp hshards
        have hout : out = out' := by
          cases hm with
          | parallel _ _ hdp => exact absurd hdp hone
          | serial _ hresolve _ hd =>
            cases hm' with
            | parallel _ _ hdp => exact absurd hdp hone'
            | serial _ hresolve' _ hd' =>
              have heq := halike.resolve
              rw [hresolve] at heq
              have hresolved := Except.ok.inj (heq.trans hresolve')
              have hexec := hd.exec_view
              have hexec' : env.exec { (env.node v).op with dataParallel := k v }
                ⟨env.storage.view g none, (env.node v).spec⟩ _ ⟨out', none⟩ := hd'.exec_view
              rw [hblind, ← hview none, ← hresolved] at hexec'
              exact congrArg Attempt.out (hdecl.once _ _ _ _ hexec hexec')
        subst hout
        exact hS.apply_agrees happly happly' (hsame x)

/-- The sequence of turns, with whatever numbers of shards. -/
theorem sequence_same (hS : env.storage.Fieldwise part) (hW : env.storage.Windowed)
    (hdecl : ∀ v < n, env.Declared (c v) (env.node v)) (hblind : ∀ op m, env.exec { op with dataParallel := m } = env.exec op)
    (hitem : ∀ v < n, 1 < (env.node v).op.dataParallel ∨ 1 < k v → ∃ rule, env.Itemwise (env.node v).op rule)
    {f₀ F G : FrameState σ} {log log' : List Entry} (h : env.Sequence f₀ log F) (h' : (env.withParallel k).Sequence f₀ log' G)
    (hlen : log.length = log'.length) (hn : log.length ≤ n) (x : Place) : FrameState.SameAt part x F G := by
  induction h generalizing log' G x with
  | nil =>
    cases h' with
    | nil => exact (RunEnv.placeWise (n := 0) (c := c) (fun _ hv => absurd hv (Nat.not_lt_zero _)) hS).refl x f₀
    | snoc _ _ => simp at hlen
  | @snoc log f e f' _ hturn ih =>
    cases h' with
    | nil => simp at hlen
    | @snoc log' g e' g' hseq' hturn' =>
      have hlen : log.length = log'.length := by simpa using hlen
      have hn : log.length + 1 ≤ n := by simpa using hn
      rw [← hlen] at hturn'
      exact turn_same hS hW (hdecl _ hn) hblind (hitem _ hn) hturn hturn' (fun x => ih hseq' hlen (Nat.le_of_succ_le hn) x) x

end Parallel

section Engine
variable {registry : Registry} {schemas : String → Option OperatorSchema} {init : OperatorConfig → Except PineError Unit}
  {json : Variant} {config : Config} {engine : Engine} {env : RunEnv σ} {part : String → σ → π} {f₀ : FrameState σ}

end Engine

namespace Solo

def shardedEnv : RunEnv (List Row) := env.withParallel fun _ => 2

theorem dispatches (w : Window) (h : (env.storage.view rows (some w)).inputViolation (env.node 0).spec = none) :
    shardedEnv.Dispatches (shardedEnv.node 0) ∅ rows (some w) (.ok (slept w.count)) :=
  .returns (input (some w) h) rfl

/-- Both shards begin, and the second one is over first. -/
theorem run_sharded : ∃ s, RunReachable shardedEnv engine.graph false 0 rows s ∧ s.sched.mainReturned = true ∧
    s.error? false = none := by
  let both (a b : ShardPhase) : Shards PineError := { shards := [(⟨0, 1⟩, a), (⟨1, 1⟩, b)] }
  have hforked : Comes shardedEnv rows rows (.sharding ∅ (both .waiting .waiting)) :=
    (((Comes.start shardedEnv rows).step (.goOn (by decide +kernel))).step (.resolve (by decide +kernel))).step
      (.fork (by decide +kernel) (by decide +kernel))
  have hbegun : Comes shardedEnv rows rows (.sharding ∅ (both .running .running)) :=
    (hforked.step (.shard (.start (k := 0) rfl rfl))).step (.shard (.start (k := 1) rfl rfl))
  have hdone : Comes shardedEnv rows rows (.sharding ∅ (both (.done (slept 1)) (.done (slept 1)))) :=
    (hbegun.step (.shard (.done (k := 1) rfl (dispatches ⟨1, 1⟩ (by decide +kernel))))).step
      (.shard (.done (k := 0) rfl (dispatches ⟨0, 1⟩ (by decide +kernel))))
  have hover : (both (.done (slept 1)) (.done (slept 1))).Over := by
    intro e he
    rcases List.mem_cons.mp he with rfl | he
    · exact ⟨nofun, nofun⟩
    · obtain rfl := List.mem_singleton.mp he
      exact ⟨nofun, nofun⟩
  have hproduced : Comes shardedEnv rows rows (.produced (slept 2)) :=
    hdone.step (@BodyStep.join _ shardedEnv _ _ _ _ _ false _ hover (by decide +kernel))
  have hdelivers : shardedEnv.deliver (shardedEnv.node 0) (slept 2) rows = .ok after := by decide +kernel
  obtain ⟨s, hr, hret, hok, -⟩ := (hproduced.step (.apply hdelivers)).returns
  exact ⟨s, hr, hret, hok⟩

/-- The rule that `slept` follows. -/
theorem itemwise (op : OperatorConfig) : env.Itemwise op fun _ _ _ f => if f = "_bench_slept" then [.bool true] else [] := by
  rintro input resolved out h
  obtain rfl := congrArg Attempt.out h
  refine ⟨⟨rfl, rfl, rfl, rfl, rfl⟩, fun f => ?_⟩
  unfold OperatorOutput.fieldWrites slept ItemRule.writes
  dsimp only
  by_cases hf : f = "_bench_slept"
  · subst hf
    rw [List.filter_eq_self.mpr (by simp), if_pos rfl, List.map_eq_flatMap]
    exact List.flatMap_congr fun i _ => by rw [List.map_singleton, Nat.zero_add]
  · rw [if_neg hf, List.filter_eq_nil_iff.mpr (by simpa using fun _ _ h => hf h.symm)]
    simp

end Solo

end Pineapple
