import Pineapple.JavaRunInv

/-! # In what order the operators of a Java run execute

Each execution begins once, and only when the tasks of all predecessors are over and their outputs, unless they were
skipped, are in the frame. -/

namespace Pineapple

variable {σ ι : Type} {env : JavaEnv σ ι} {g : Graph}

namespace JavaRunState
variable (s : JavaRunState σ ι)

/-- The task of `v` is over and has not failed. -/
def Ended (v : Nat) : Prop := ∃ x, s.bodies v = .ended x ∧ x.failed? = false

/-- The operator `v` was skipped, or has returned and its output is applied. -/
def Applied (v : Nat) : Prop := s.bodies v = .ended .skipped ∨ ∃ out, s.bodies v = .ended (.applied out)

/-- The execution `t` has begun. -/
def HasBegun : JavaTask → Prop
  | .node i => 8 ≤ (s.bodies i).stage
  | .shard i k => ∃ sh phase, s.shards i = some sh ∧ sh.phase? k = some phase ∧ phase.begun = true

end JavaRunState

namespace JavaBodyStep
variable {s : JavaRunState σ ι} {i : Nat} {b b' : JavaBody ι} {eff : JavaEffect σ ι}

theorem waiting (h : JavaBodyStep env g s i b eff b') {rest : List Nat} (hb : b' = .waiting rest) :
    (b = .queued ∧ rest = g.preds i) ∨ ∃ v, b = .waiting (v :: rest) ∧ s.completed v = true ∧ s.fatal = none := by
  cases h with
  | start =>
    cases hb
    exact .inl ⟨rfl, rfl⟩
  | join hc hf =>
    cases hb
    exact .inr ⟨_, rfl, hc, hf⟩
  | _ => cases hb

theorem unfailed (h : JavaBodyStep env g s i b eff b') (hb : b' = .unfailed) : b = .waiting [] := by
  cases h with
  | check _ => rfl
  | _ => cases hb

end JavaBodyStep

structure JavaOrderInv (g : Graph) (s : JavaRunState σ ι) : Prop where
  fork : JavaForkInv g s
  suffix : ∀ i rest, s.bodies i = .waiting rest → rest <:+ g.preds i
  joined : ∀ i rest, s.bodies i = .waiting rest → ∀ v ∈ g.preds i, v ∈ rest ∨ s.Ended v
  unfailed : ∀ i, s.bodies i = .unfailed → ∀ v ∈ g.preds i, s.Ended v
  settled : ∀ i, (s.bodies i).active = true → ∀ v ∈ g.preds i, s.Applied v
  forkSettled : ∀ i, s.shards i ≠ none → ∀ v ∈ g.preds i, s.Applied v
  begun : ∀ t ∈ s.begun, s.HasBegun t
  begunSettled : ∀ t ∈ s.begun, ∀ v ∈ g.preds t.owner, s.Applied v
  nodup : s.begun.Nodup

namespace JavaOrderInv
variable {s s' : JavaRunState σ ι} {l : JavaLabel σ ι}

theorem init (g : Graph) (f₀ : σ) : JavaOrderInv g ({ frame := f₀ } : JavaRunState σ ι) where
  fork := .init g f₀
  suffix _ _ := nofun
  joined _ _ := nofun
  unfailed _ := nofun
  settled _ := nofun
  forkSettled _ h := (h rfl).elim
  begun _ := nofun
  begunSettled _ := nofun
  nodup := .nil

theorem ended_mono (h : JavaOrderInv g s) (hs : JavaStep env g l s s') {v : Nat} (hv : s.Ended v) : s'.Ended v :=
  hv.imp fun _ hx => ⟨h.fork.inv.over_stays hs hx.1, hx.2⟩

theorem settled_mono (h : JavaOrderInv g s) (hs : JavaStep env g l s s') {v : Nat} (hv : s.Applied v) : s'.Applied v :=
  hv.imp (h.fork.inv.over_stays hs) fun ⟨out, hx⟩ => ⟨out, h.fork.inv.over_stays hs hx⟩

/-- As long as the run has not failed, whose future is complete is over. -/
theorem ended_of_completed (h : JavaOrderInv g s) {v : Nat} (hv : s.completed v = true) (hf : s.fatal = none) :
    s.Ended v := by
  rcases h.fork.inv.completed v hv with ⟨x, hx⟩ | ⟨hfatal, -⟩
  · refine ⟨x, hx, Bool.eq_false_iff.mpr fun hfailed => ?_⟩
    have := h.fork.inv.afterFailure v (by rw [hx]; exact hfailed)
    rw [hf] at this
    cases this
  · rw [hf] at hfatal
    cases hfatal

/-- As long as the context is not cancelled, nobody was passed over. -/
theorem settled_of_ended (h : JavaOrderInv g s) {v : Nat} (hv : s.Ended v) (hc : s.cancelled = false) : s.Applied v := by
  obtain ⟨x, hx, hfailed⟩ := hv
  cases x with
  | skipped => exact .inl hx
  | applied out => exact .inr ⟨out, hx⟩
  | passed =>
    have := h.fork.inv.afterCancel v (by rw [hx]; rfl)
    rw [hc] at this
    cases this
  | stopped | failed _ => cases hfailed

theorem joined_step (h : JavaOrderInv g s) (hs : JavaStep env g l s s') (i : Nat) (rest : List Nat)
    (hi : s'.bodies i = .waiting rest) : rest <:+ g.preds i ∧ ∀ v ∈ g.preds i, v ∈ rest ∨ s'.Ended v := by
  rcases hs.body i with ⟨hsame, -⟩ | ⟨eff, rfl, hb⟩ | ⟨-, -, hq⟩
  · rw [hsame] at hi
    exact ⟨h.suffix i rest hi, fun v hv => (h.joined i rest hi v hv).imp_right (h.ended_mono hs)⟩
  · rcases hb.waiting hi with ⟨-, rfl⟩ | ⟨v, hold, hc, hf⟩
    · exact ⟨List.suffix_rfl, fun v hv => .inl hv⟩
    · refine ⟨(List.suffix_cons ..).trans (h.suffix i _ hold), fun u hu => ?_⟩
      rcases h.joined i _ hold u hu with hmem | hended
      · rcases List.mem_cons.mp hmem with rfl | hmem
        · exact .inr (h.ended_mono hs (h.ended_of_completed hc hf))
        · exact .inl hmem
      · exact .inr (h.ended_mono hs hended)
  · rw [hq] at hi
    cases hi

theorem unfailed_step (h : JavaOrderInv g s) (hs : JavaStep env g l s s') (i : Nat) (hi : s'.bodies i = .unfailed) :
    ∀ v ∈ g.preds i, s'.Ended v := by
  intro v hv
  rcases hs.body i with ⟨hsame, -⟩ | ⟨eff, rfl, hb⟩ | ⟨-, -, hq⟩
  · rw [hsame] at hi
    exact h.ended_mono hs (h.unfailed i hi v hv)
  · rcases h.joined i [] (hb.unfailed hi) v hv with hmem | hended
    · cases hmem
    · exact h.ended_mono hs hended
  · rw [hq] at hi
    cases hi

theorem settled_step (h : JavaOrderInv g s) (hs : JavaStep env g l s s') (i : Nat)
    (hi : (s'.bodies i).active = true) : ∀ v ∈ g.preds i, s'.Applied v := by
  intro v hv
  rcases hs.body i with ⟨hsame, -⟩ | ⟨eff, rfl, hb⟩ | ⟨-, -, hq⟩
  · rw [hsame] at hi
    exact h.settled_mono hs (h.settled i hi v hv)
  · rcases hb.active hi with hold | ⟨hold, hc⟩
    · exact h.settled_mono hs (h.settled i hold v hv)
    · exact h.settled_mono hs (h.settled_of_ended (h.unfailed i hold v hv) hc)
  · rw [hq] at hi
    cases hi

theorem forkSettled_step (h : JavaOrderInv g s) (hs : JavaStep env g l s s') (i : Nat) (hi : s'.shards i ≠ none) :
    ∀ v ∈ g.preds i, s'.Applied v := by
  intro v hv
  refine h.settled_mono hs ?_
  cases hold : s.shards i with
  | some sh => exact h.forkSettled i (by rw [hold]; exact nofun) v hv
  | none =>
    rcases hs.shards i with heq | ⟨eff, rfl, hb, heq⟩ | ⟨_, _, sh₀, _, -, hsh₀, -⟩ | ⟨-, heq⟩
    · exact (hi (heq.trans hold)).elim
    · rw [hold] at heq
      generalize hbody : s.bodies i = b at hb
      generalize s'.bodies i = b' at hb
      cases hb with
      | fork _ _ _ => exact h.settled i (by rw [hbody]; rfl) v hv
      | _ => exact (hi heq).elim
    · rw [hold] at hsh₀
      cases hsh₀
    · rw [hold] at heq
      exact (hi heq).elim

theorem hasBegun_mono (h : JavaOrderInv g s) (hs : JavaStep env g l s s') {t : JavaTask} (ht : s.HasBegun t) :
    s'.HasBegun t := by
  cases t with
  | node i =>
    rcases hs.body i with ⟨hsame, -⟩ | ⟨eff, rfl, hb⟩ | ⟨-, hmain, -⟩
    · exact le_of_le_of_eq ht (congrArg JavaBody.stage hsame.symm)
    · exact le_trans ht hb.stage_le
    · have habsent := (h.fork.inv.submitted i).mpr (by rw [hmain]; exact le_refl i)
      change 8 ≤ (s.bodies i).stage at ht
      generalize s.bodies i = b at habsent ht
      cases b <;> first | exact absurd ht (Nat.not_succ_le_zero 7) | cases habsent
  | shard i k =>
    obtain ⟨sh, phase, hsh, hk, hbegun⟩ := ht
    have hkeep : (∀ eff, l = .node i eff → (∀ sh₀, eff ≠ .fork sh₀) ∧ ∀ k, eff ≠ .submit k) → s'.HasBegun (.shard i k) := by
      intro hl
      obtain ⟨sh', hsh', -, hphases⟩ := hs.keeps hsh hl
      rcases hphases k with hsame | ⟨act, old, new, -, hold, hnew, hmove⟩
      · exact ⟨sh', phase, hsh', hsame.trans hk, hbegun⟩
      · rw [hk] at hold
        cases hold
        exact ⟨sh', new, hsh', hnew, hmove.begun hbegun⟩
    rcases hs.body i with ⟨-, hl⟩ | ⟨eff, rfl, hb⟩ | ⟨rfl, -, -⟩
    · exact hkeep fun eff heq => (hl eff heq).elim
    · rcases JavaForkInv.node_shards hb with ⟨sh₀, n, rfl, hstage, -⟩ | ⟨n, j, rfl, hlt, hbody, -⟩ | ⟨hkind, -⟩
      · have hnone := h.fork.unforked i (by rw [hstage]; exact Nat.lt_succ_of_le (Nat.le_succ 7))
        rw [hsh] at hnone
        cases hnone
      · -- the shard that is submitted has not begun
        have hshards := hs.shards_node
        rw [hsh] at hshards
        refine ⟨_, phase, hshards, ?_, hbegun⟩
        rw [JavaShards.phase?_set]
        split
        · next heq =>
          subst heq
          have habsent := (h.fork.absent i sh hsh j phase hk).mpr ⟨n, j, hbody, le_refl j⟩
          have hnot : phase.begun = false := by
            cases phase <;> first | rfl | cases habsent
          rw [hbegun] at hnot
          cases hnot
        · exact hk
      · exact hkeep fun eff' heq => by cases heq; exact hkind
    · exact hkeep fun _ => nofun

/-- An execution that begins has not begun before. -/
theorem begins (h : JavaOrderInv g s) (hs : JavaStep env g l s s') : s'.begun = s.begun ∨
    ∃ t, s'.begun = s.begun ++ [t] ∧ ¬s.HasBegun t ∧ s'.HasBegun t ∧ ∀ v ∈ g.preds t.owner, s.Applied v := by
  cases hs with
  | @node _ i b eff b' hb hstep =>
    rcases @JavaRunState.begun_move σ ι s (env.node i).op.name i eff b' with hsame | ⟨rfl, hbegun⟩
    · exact .inl hsame
    · refine .inr ⟨.node i, hbegun, ?_, ?_, ?_⟩
      · cases hstep with
        | serial _ =>
          intro ht
          change 8 ≤ (s.bodies i).stage at ht
          rw [hb] at ht
          exact Nat.not_succ_le_self 7 ht
      · cases hstep with
        | serial _ =>
          show 8 ≤ (Function.update s.bodies i _ i).stage
          rw [Function.update_self]
          exact le_refl 8
      · cases hstep with
        | serial _ => exact h.settled i (by rw [hb]; rfl)
  | @shard _ i k sh act sh' hsh hstep =>
    by_cases hact : act = .begin
    · obtain ⟨phase, phase', hk, hk', hmove⟩ := hstep.phase_self
      obtain ⟨hold, hnew⟩ := hmove.begins hact
      refine .inr ⟨.shard i k, ?_, ?_, ⟨sh', phase', Function.update_self .., hk', hnew⟩, ?_⟩
      · show (if act = .begin then _ else _) = _
        rw [if_pos hact]
      · rintro ⟨sh₁, phase₁, hsh₁, hk₁, hbegun⟩
        rw [hsh] at hsh₁
        cases hsh₁
        rw [hk] at hk₁
        cases hk₁
        rw [hold] at hbegun
        cases hbegun
      · exact h.forkSettled i (by rw [hsh]; exact nofun)
    · refine .inl ?_
      show (if act = .begin then _ else _) = _
      rw [if_neg hact]
  | main hm => exact .inl hm.frame.2.2.2.1
  | _ => exact .inl rfl

theorem step (h : JavaOrderInv g s) (hs : JavaStep env g l s s') : JavaOrderInv g s' where
  fork := h.fork.step hs
  suffix i rest hi := (h.joined_step hs i rest hi).1
  joined i rest hi := (h.joined_step hs i rest hi).2
  unfailed := h.unfailed_step hs
  settled := h.settled_step hs
  forkSettled := h.forkSettled_step hs
  begun t ht := by
    rcases h.begins hs with heq | ⟨u, heq, -, hu, -⟩
    · exact h.hasBegun_mono hs (h.begun t (heq ▸ ht))
    · rw [heq, List.mem_append, List.mem_singleton] at ht
      rcases ht with ht | rfl
      · exact h.hasBegun_mono hs (h.begun t ht)
      · exact hu
  begunSettled t ht v hv := by
    refine h.settled_mono hs ?_
    rcases h.begins hs with heq | ⟨u, heq, -, -, hu⟩
    · exact h.begunSettled t (heq ▸ ht) v hv
    · rw [heq, List.mem_append, List.mem_singleton] at ht
      rcases ht with ht | rfl
      · exact h.begunSettled t ht v hv
      · exact hu v hv
  nodup := by
    rcases h.begins hs with heq | ⟨t, heq, hnot, -, -⟩
    · rw [heq]
      exact h.nodup
    · rw [heq]
      refine List.nodup_append'.mpr ⟨h.nodup, List.nodup_singleton t, ?_⟩
      rw [List.disjoint_singleton]
      exact fun hmem => hnot (h.begun t hmem)

end JavaOrderInv

end Pineapple
