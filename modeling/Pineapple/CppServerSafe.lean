import Pineapple.CppServer

/-! # Requests and reloads of the C++ server see one generation

The invariant of the server, what each step keeps of it, and from it what every run does. -/

namespace Pineapple.CppServer

/-! ## The invariant -/

/-- Inside a shared section. -/
def Handler.reads : Handler → Bool
  | inside _ | snapped _ | executing _ _ | leave => true
  | _ => false

inductive Handler.Knows (sh : Shared) : Handler → Prop
  | idle : Knows sh idle
  | want {r} : Knows sh (want r)
  | inside {r} : Knows sh (inside r)
  | snapped {m} : sh.pointers.manager = m → Knows sh (snapped m)
  | executing {e m} : sh.pointers.engine = some e → sh.pointers.manager = m → Knows sh (executing e m)
  | leave : Knows sh leave

/-- Neither closed nor stopped. -/
def Shared.Live (sh : Shared) (g : Nat) : Prop := g ∉ sh.closed ∧ g ∉ sh.stopped

/-- What the new pointers point to was made from the load `config`. -/
def Pointers.MadeFrom (config : Nat) (p : Pointers) : Prop :=
  (∀ e, p.engine = some e → e.config = config) ∧ ∀ m, p.manager = some m → m = config

/-- A reload that has begun and not come to the swap, with the generation `g` in place. -/
structure Underway (sh : Shared) (g config : Nat) : Prop where
  before : sh.attempt = sh.view
  unfailed : sh.failed = false
  fresh : g < config
  counted : config < sh.loads
  live : sh.Live config

namespace Watcher

/-- Inside the exclusive section. -/
def writes : Watcher → Bool
  | swap _ _ _ => true
  | _ => false

/-- What the watcher knows of the shared state, where `g` is the generation in place or about to be replaced. -/
inductive Knows (sh : Shared) (g : Nat) : Watcher → Prop
  | sleep : Knows sh g sleep
  | loadConfig : sh.attempt = sh.view → sh.failed = false → Knows sh g loadConfig
  | build {todo config new} : Underway sh g config → new.MadeFrom config →
      todo.foldl (fun p b => b.apply config p) new = .generation config → Knows sh g (build todo config new)
  | wantLock {config} : Underway sh g config → Knows sh g (wantLock (.generation config))
  /-- the moves that are left lead from here to the pointers exchanged -/
  | swap {todo old new config} : sh.attempt.pointers = .generation g → sh.failed = false → g < config →
      config < sh.loads → sh.Live config →
      todo.foldl (fun s m => m.apply s) ⟨sh.pointers, old, new⟩ = ⟨.generation config, .generation g, {}⟩ →
      Knows sh g (swap todo old new)
  | close {o} : sh.attempt.pointers = .generation o → sh.failed = false → o < g → Knows sh g (close (.generation o))
  | stop {o} : sh.failed = false → o < g → Knows sh g (stop (.generation o))
  | preInit : sh.failed = false → Knows sh g preInit
  | count {ok} : (ok = true → sh.failed = false) → Knows sh g (count ok)
  | joined : Knows sh g joined

end Watcher

namespace Main

def writes : Main → Bool
  | close | stop => true
  | _ => false

/-- The engine in place may have been closed. -/
def retired : Main → Bool
  | stop | returned => true
  | _ => false

/-- Past the join of the watcher, and past the drain of the handlers. -/
def joined : Main → Bool
  | accept | join => false
  | _ => true

def drained : Main → Bool
  | accept | join | drain => false
  | _ => true

end Main

/-- The invariant, where `g` is the generation in place; `quiet` tells that no `close` of an engine swapped out
has thrown. -/
structure ServerInv (quiet : Prop) (g : Nat) (s : ServerState) : Prop where
  lock : s.shared.lock.Guards (s.handlers.countP Handler.reads)
    ((if s.watcher.writes then 1 else 0) + if s.main.writes then 1 else 0)
  handlers : ∀ h ∈ s.handlers, h.Knows s.shared
  watcher : s.watcher.Knows s.shared g
  joined : s.main.joined = true → s.watcher = .joined
  drained : s.main.drained = true → s.handlers = []
  inFlight : s.shared.inFlight = s.handlers.length
  settled : s.watcher.writes = false → s.shared.pointers = .generation g
  counted : g < s.shared.loads
  logged : (∀ x ∈ s.shared.closed, x < s.shared.loads) ∧ ∀ x ∈ s.shared.stopped, x < s.shared.loads
  live : s.main.retired = false → s.shared.Live g
  kept : quiet → s.shared.failed = true → s.shared.attempt = s.shared.view

/-! ## What the steps keep -/

theorem Pointers.MadeFrom.apply {config : Nat} {new : Pointers} (h : new.MadeFrom config) (b : Build) :
    (b.apply config new).MadeFrom config := by
  cases b with
  | newManager => exact ⟨h.1, fun _ hm => (Option.some.inj hm).symm⟩
  | newEngine => exact ⟨fun _ he => Option.some.inj he ▸ rfl, h.2⟩
  | newMetrics | loadFromConfig | validateResourceDeps | start | expand => exact h

/-- What is destroyed of another generation does not touch the one in place. -/
theorem Pointers.MadeFrom.destroy_logged {sh : Shared} {g config : Nat} {p : Pointers} (h : p.MadeFrom config)
    (hne : config ≠ g) (hlt : config < sh.loads) :
    (∀ x ∈ (sh.destroy p).closed, x ∈ sh.closed ∨ x ≠ g ∧ x < sh.loads) ∧
      ∀ x ∈ (sh.destroy p).stopped, x ∈ sh.stopped ∨ x ≠ g ∧ x < sh.loads := by
  refine ⟨fun x hx => ?_, fun x hx => ?_⟩
  · rcases List.mem_append.mp hx with hx | hx
    · obtain ⟨e, he, rfl⟩ := Option.map_eq_some_iff.mp (Option.mem_toList.mp hx)
      rw [h.1 e he]
      exact .inr ⟨hne, hlt⟩
    · exact .inl hx
  · rcases List.mem_append.mp hx with hx | hx
    · rw [h.2 x (Option.mem_toList.mp hx)]
      exact .inr ⟨hne, hlt⟩
    · exact .inl hx

theorem Pointers.madeFrom_generation (g : Nat) : (Pointers.generation g).MadeFrom g :=
  ⟨fun _ he => Option.some.inj he ▸ rfl, fun _ hm => (Option.some.inj hm).symm⟩

theorem Handler.Knows.of_not_reads {sh : Shared} {h : Handler} (hr : h.reads = false) : h.Knows sh := by
  cases h with
  | idle => exact .idle
  | want => exact .want
  | inside | snapped | executing | leave => cases hr

theorem Handler.Knows.congr {sh sh' : Shared} {h : Handler} (hk : h.Knows sh) (hp : sh'.pointers = sh.pointers) :
    h.Knows sh' := by
  cases hk with
  | snapped hm => exact .snapped (hp ▸ hm)
  | executing he hm => exact .executing (hp ▸ he) (hp ▸ hm)
  | idle => exact .idle
  | want => exact .want
  | inside => exact .inside
  | leave => exact .leave

/-- All that the invariant reads of the shared state, but the lock and the number of handlers, is the same. -/
structure Shared.Same (sh' sh : Shared) : Prop where
  pointers : sh'.pointers = sh.pointers
  reloadCount : sh'.reloadCount = sh.reloadCount
  loads : sh'.loads = sh.loads
  closed : sh'.closed = sh.closed
  stopped : sh'.stopped = sh.stopped
  attempt : sh'.attempt = sh.attempt
  failed : sh'.failed = sh.failed

namespace Shared.Same
variable {sh sh' : Shared} (hsame : sh'.Same sh)
include hsame

theorem view : sh'.view = sh.view := by rw [Shared.view, hsame.pointers, hsame.reloadCount, Shared.view]

theorem live {x : Nat} (h : sh.Live x) : sh'.Live x := by rwa [Shared.Live, hsame.closed, hsame.stopped]

theorem underway {g config : Nat} (h : Underway sh g config) : Underway sh' g config where
  before := by rw [hsame.attempt, hsame.view, h.before]
  unfailed := hsame.failed.trans h.unfailed
  fresh := h.fresh
  counted := hsame.loads ▸ h.counted
  live := hsame.live h.live

theorem watcher {g : Nat} {w : Watcher} (hk : w.Knows sh g) : w.Knows sh' g := by
  cases hk with
  | sleep => exact .sleep
  | loadConfig hb hu => exact .loadConfig (by rw [hsame.attempt, hsame.view, hb]) (hsame.failed.trans hu)
  | build hu hm hfold => exact .build (hsame.underway hu) hm hfold
  | wantLock hu => exact .wantLock (hsame.underway hu)
  | swap hb hu hlt hcount hl hfold =>
    exact .swap (by rw [hsame.attempt, hb]) (hsame.failed.trans hu) hlt (hsame.loads ▸ hcount) (hsame.live hl)
      (by rw [hsame.pointers, hfold])
  | close hb hu hlt => exact .close (by rw [hsame.attempt, hb]) (hsame.failed.trans hu) hlt
  | stop hu hlt => exact .stop (hsame.failed.trans hu) hlt
  | preInit hu => exact .preInit (hsame.failed.trans hu)
  | count hu => exact .count fun hok => hsame.failed.trans (hu hok)
  | joined => exact .joined

end Shared.Same

namespace ServerInv
variable {quiet : Prop} {g : Nat} {sh sh' : Shared} {h h' : Handler} {hs hs' : List Handler} {w : Watcher} {m : Main}

theorem weaken {quiet' : Prop} {s : ServerState} (hi : ServerInv quiet g s) (hq : quiet' → quiet) :
    ServerInv quiet' g s :=
  { hi with kept := fun h => hi.kept (hq h) }

theorem perm (hi : ServerInv quiet g ⟨sh, hs, w, m⟩) (hp : hs'.Perm hs) : ServerInv quiet g ⟨sh, hs', w, m⟩ where
  lock := by
    have := hi.lock
    rwa [← hp.countP_eq] at this
  handlers x hx := hi.handlers x (hp.mem_iff.mp hx)
  watcher := hi.watcher
  joined := hi.joined
  drained hm := List.length_eq_zero_iff.mp (hp.length_eq.trans (congrArg List.length (hi.drained hm)))
  inFlight := hi.inFlight.trans hp.length_eq.symm
  settled := hi.settled
  counted := hi.counted
  logged := hi.logged
  live := hi.live
  kept := hi.kept

/-- Handlers come, go or move on or the main thread does, and nothing that is loaded changes. -/
theorem frame {m' : Main} (hi : ServerInv quiet g ⟨sh, hs, w, m⟩) (hsame : sh'.Same sh)
    (hlock : sh'.lock.Guards (hs'.countP Handler.reads) ((if w.writes then 1 else 0) + if m'.writes then 1 else 0))
    (hhandlers : ∀ h ∈ hs', h.Knows sh) (hin : sh'.inFlight = hs'.length) (hjoined : m'.joined = true → w = .joined)
    (hdrained : m'.drained = true → hs' = []) (hretired : m'.retired = false → m.retired = false) :
    ServerInv quiet g ⟨sh', hs', w, m'⟩ where
  lock := hlock
  handlers x hx := (hhandlers x hx).congr hsame.pointers
  watcher := hsame.watcher hi.watcher
  joined := hjoined
  drained := hdrained
  inFlight := hin
  settled hw := hsame.pointers.trans (hi.settled hw)
  counted := hsame.loads ▸ hi.counted
  logged := by
    have := hi.logged
    rwa [← hsame.closed, ← hsame.stopped, ← hsame.loads] at this
  live hm := hsame.live (hi.live (hretired hm))
  kept hq hfail := by
    rw [hsame.attempt, hsame.view]
    exact hi.kept hq (hsame.failed ▸ hfail)

theorem handlers_cons (hi : ServerInv quiet g ⟨sh, h :: hs, w, m⟩) (hk : h'.Knows sh) :
    ∀ x ∈ h' :: hs, x.Knows sh := by
  intro x hx
  rcases List.mem_cons.mp hx with rfl | hx
  · exact hk
  · exact hi.handlers x (List.mem_cons_of_mem _ hx)

/-- A step of the handler at the head. -/
theorem handlerStep (hi : ServerInv quiet g ⟨sh, h :: hs, w, m⟩) (hstep : h.Step sh sh' h') :
    ServerInv quiet g ⟨sh', h' :: hs, w, m⟩ := by
  have hlock := hi.lock
  have hdrained : m.drained = true → h' :: hs = [] := fun hm => absurd (hi.drained hm) (List.cons_ne_nil _ _)
  have hin : sh.inFlight = (h' :: hs).length := hi.inFlight
  have hknows := hi.handlers h List.mem_cons_self
  -- the handler moves on without an access to the lock
  have hmove (hr : h'.reads = h.reads) (hk : h'.Knows sh) : ServerInv quiet g ⟨sh, h' :: hs, w, m⟩ := by
    refine hi.frame ⟨rfl, rfl, rfl, rfl, rfl, rfl, rfl⟩ ?_ (hi.handlers_cons hk) hin hi.joined hdrained id
    rw [List.countP_cons] at hlock ⊢
    rwa [hr]
  cases hstep with
  | request => exact hmove rfl .want
  | notLoaded => exact hmove rfl .leave
  | finish => exact hmove rfl .leave
  | renderDag => exact hmove rfl .leave
  | stats => exact hmove rfl .leave
  | execute he =>
    cases hknows with
    | snapped hm => exact hmove rfl (.executing he hm)
  | snapshot =>
    exact hi.frame ⟨rfl, rfl, rfl, rfl, rfl, rfl, rfl⟩ hlock (hi.handlers_cons (.snapped rfl)) hin hi.joined hdrained id
  | lockShared hl =>
    refine hi.frame ⟨rfl, rfl, rfl, rfl, rfl, rfl, rfl⟩ ?_ (hi.handlers_cons .inside) hin hi.joined hdrained id
    rw [List.countP_cons_of_pos rfl]
    rw [List.countP_cons_of_neg Bool.false_ne_true] at hlock
    exact hlock.lockShared hl
  | unlockShared =>
    refine hi.frame ⟨rfl, rfl, rfl, rfl, rfl, rfl, rfl⟩ ?_ (hi.handlers_cons .idle) hin hi.joined hdrained id
    rw [List.countP_cons_of_neg Bool.false_ne_true]
    rw [List.countP_cons_of_pos rfl] at hlock
    exact hlock.unlockShared

/-! ### The watcher -/

/-- The watcher inside its exclusive section: nobody reads, and the main thread waits. -/
theorem swapping (hi : ServerInv quiet g ⟨sh, hs, w, m⟩) (hw : w.writes = true) :
    (∀ h ∈ hs, h.reads = false) ∧ m.writes = false := by
  have hlock : sh.lock.Guards (hs.countP Handler.reads) ((if m.writes then 1 else 0) + 1) := by
    have hlock := hi.lock
    rwa [if_pos hw, Nat.add_comm] at hlock
  obtain ⟨hm, hr⟩ := hlock.alone
  refine ⟨fun h hh => ?_, ?_⟩
  · simpa using List.countP_eq_zero.mp hr h hh
  · cases hmw : m.writes with
    | false => rfl
    | true =>
      rw [if_pos hmw] at hm
      cases hm

/-- A watcher that is not joined keeps the main thread before its join, so the generation in place is live. -/
theorem unjoined (hi : ServerInv quiet g ⟨sh, hs, w, m⟩) (hw : w ≠ .joined) : m.joined = false ∧ sh.Live g := by
  have hm : m.joined = false := by
    cases hm : m.joined with
    | false => rfl
    | true => exact absurd (hi.joined hm) hw
  have hretired : m.retired = false := by
    cases m with
    | accept | join => rfl
    | drain | wantLock | close | stop | returned => cases hm
  exact ⟨hm, hi.live hretired⟩

/-- A step of the watcher outside the exclusive section that leaves the pointers alone. -/
theorem watcherMoves {w' : Watcher} {quiet' : Prop} (hi : ServerInv quiet g ⟨sh, hs, w, m⟩) (hne : w ≠ .joined)
    (hw : w.writes = false) (hw' : w'.writes = false) (hp : sh'.pointers = sh.pointers) (hlock : sh'.lock = sh.lock)
    (hin : sh'.inFlight = sh.inFlight) (hloads : sh.loads ≤ sh'.loads)
    (hlogged : (∀ x ∈ sh'.closed, x ∈ sh.closed ∨ x ≠ g ∧ x < sh'.loads) ∧
      ∀ x ∈ sh'.stopped, x ∈ sh.stopped ∨ x ≠ g ∧ x < sh'.loads)
    (hknows : w'.Knows sh' g) (hkept : quiet' → sh'.failed = true → sh'.attempt = sh'.view) :
    ServerInv quiet' g ⟨sh', hs, w', m⟩ where
  lock := by
    have := hi.lock
    rwa [hw, ← hw', ← hlock] at this
  handlers x hx := (hi.handlers x hx).congr hp
  watcher := hknows
  joined hm := absurd ((hi.unjoined hne).1.symm.trans hm) Bool.false_ne_true
  drained := hi.drained
  inFlight := hin.trans hi.inFlight
  settled _ := hp.trans (hi.settled hw)
  counted := Nat.lt_of_lt_of_le hi.counted hloads
  logged := by
    refine ⟨fun x hx => ?_, fun x hx => ?_⟩
    · rcases hlogged.1 x hx with hx | hx
      · exact Nat.lt_of_lt_of_le (hi.logged.1 x hx) hloads
      · exact hx.2
    · rcases hlogged.2 x hx with hx | hx
      · exact Nat.lt_of_lt_of_le (hi.logged.2 x hx) hloads
      · exact hx.2
  live _ := by
    obtain ⟨hclosed, hstopped⟩ := (hi.unjoined hne).2
    refine ⟨fun hx => ?_, fun hx => ?_⟩
    · rcases hlogged.1 g hx with hx | hx
      · exact hclosed hx
      · exact hx.1 rfl
    · rcases hlogged.2 g hx with hx | hx
      · exact hstopped hx
      · exact hx.1 rfl
  kept := hkept

theorem takeLock {new : Pointers} (hi : ServerInv quiet g ⟨sh, hs, .wantLock new, m⟩) (hfree : sh.lock.Free) :
    ServerInv quiet g ⟨{ sh with lock := sh.lock.lock }, hs, .swap moves {} new, m⟩ where
  lock := by
    have hlock := hi.lock.lock hfree
    rwa [Nat.add_right_comm] at hlock
  handlers x hx := (hi.handlers x hx).congr rfl
  watcher := by
    have hpointers := hi.settled rfl
    cases hi.watcher with
    | wantLock hu =>
      refine .swap ?_ hu.unfailed hu.fresh hu.counted hu.live ?_
      · exact (congrArg View.pointers hu.before).trans hpointers
      · show moves.foldl (fun s m => m.apply s) (Swap.mk sh.pointers {} _) = _
        rw [hpointers]
        rfl
  joined hm := absurd ((hi.unjoined Watcher.noConfusion).1.symm.trans hm) Bool.false_ne_true
  drained := hi.drained
  inFlight := hi.inFlight
  settled hw := absurd hw.symm Bool.false_ne_true
  counted := hi.counted
  logged := hi.logged
  live := hi.live
  kept := hi.kept

theorem move {mv : Move} {todo : List Move} {old new : Pointers}
    (hi : ServerInv quiet g ⟨sh, hs, .swap (mv :: todo) old new, m⟩) :
    ServerInv quiet g ⟨{ sh with pointers := (mv.apply ⟨sh.pointers, old, new⟩).current }, hs,
      .swap todo (mv.apply ⟨sh.pointers, old, new⟩).old (mv.apply ⟨sh.pointers, old, new⟩).new, m⟩ where
  lock := hi.lock
  handlers x hx := .of_not_reads ((hi.swapping rfl).1 x hx)
  watcher := by
    cases hi.watcher with
    | swap hb hu hlt hcount hlive hfold => exact .swap hb hu hlt hcount hlive hfold
  joined hm := absurd ((hi.unjoined Watcher.noConfusion).1.symm.trans hm) Bool.false_ne_true
  drained := hi.drained
  inFlight := hi.inFlight
  settled hw := absurd hw.symm Bool.false_ne_true
  counted := hi.counted
  logged := hi.logged
  live := hi.live
  kept _ hfail := by
    cases hi.watcher with
    | swap _ hu => exact absurd (hu.symm.trans hfail) Bool.false_ne_true

/-- The swap is done: the new generation is in place. -/
theorem unlock {old new : Pointers} (hi : ServerInv quiet g ⟨sh, hs, .swap [] old new, m⟩) :
    ∃ g', ServerInv quiet g' ⟨{ sh with lock := sh.lock.unlock }, hs, .close old, m⟩ := by
  obtain ⟨hreads, -⟩ := hi.swapping rfl
  have hlock := hi.lock
  have hjoined := (hi.unjoined Watcher.noConfusion).1
  cases hi.watcher with
  | @swap _ _ _ config hb hu hlt hcount hlive hfold =>
    obtain ⟨hcurrent, hold, -⟩ := Swap.mk.inj hfold
    exact ⟨config, {
      lock := by
        rw [show (if (Watcher.swap [] old new).writes then 1 else 0) = 1 from rfl, Nat.add_comm] at hlock
        rw [show (if (Watcher.close old).writes then 1 else 0) = 0 from rfl, Nat.zero_add]
        exact hlock.unlock
      handlers := fun x hx => .of_not_reads (hreads x hx)
      watcher := hold ▸ .close hb hu hlt
      joined := fun hm => absurd (hjoined.symm.trans hm) Bool.false_ne_true
      drained := hi.drained
      inFlight := hi.inFlight
      settled := fun _ => hcurrent
      counted := hcount
      logged := hi.logged
      live := fun _ => hlive
      kept := fun _ hfail => absurd (hu.symm.trans hfail) Bool.false_ne_true }⟩

/-- A step of the watcher; the flag of a `close` that throws is remembered. -/
theorem watcherStep {threw : Bool} {w' : Watcher} (hi : ServerInv quiet g ⟨sh, hs, w, m⟩)
    (hstep : w.Step sh threw sh' w') : ∃ g', ServerInv (quiet ∧ threw = false) g' ⟨sh', hs, w', m⟩ := by
  have hquiet {g' : Nat} {s' : ServerState} (h : ServerInv quiet g' s') : ServerInv (quiet ∧ false = false) g' s' :=
    h.weaken And.left
  have hlog : (∀ x ∈ sh.closed, x ∈ sh.closed ∨ x ≠ g ∧ x < sh.loads) ∧
      ∀ x ∈ sh.stopped, x ∈ sh.stopped ∨ x ≠ g ∧ x < sh.loads := ⟨fun _ hx => .inl hx, fun _ hx => .inl hx⟩
  have hcounted := hi.counted
  have hknows := hi.watcher
  cases hstep with
  | wake =>
    exact ⟨g, hi.watcherMoves nofun rfl rfl rfl rfl rfl (Nat.le_refl _) hlog (.loadConfig rfl rfl) nofun⟩
  | quit => exact ⟨g, hquiet (hi.watcherMoves nofun rfl rfl rfl rfl rfl (Nat.le_refl _) hlog .joined hi.kept)⟩
  | loadConfig =>
    cases hknows with
    | loadConfig hb hu =>
      have hlive : sh.Live sh.loads :=
        ⟨fun hx => Nat.lt_irrefl _ (hi.logged.1 _ hx), fun hx => Nat.lt_irrefl _ (hi.logged.2 _ hx)⟩
      refine ⟨g, hquiet (hi.watcherMoves nofun rfl rfl rfl rfl rfl (Nat.le_succ _) ?_ ?_ hi.kept)⟩
      · exact ⟨fun _ hx => .inl hx, fun _ hx => .inl hx⟩
      · exact .build ⟨hb, hu, hcounted, Nat.lt_succ_self _, hlive⟩ ⟨nofun, nofun⟩ rfl
  | loadFails =>
    cases hknows with
    | loadConfig hb =>
      exact ⟨g, hi.watcherMoves nofun rfl rfl rfl rfl rfl (Nat.le_refl _) hlog (.count nofun) fun _ _ => hb⟩
  | @build b todo config new =>
    cases hknows with
    | build hu hm hfold =>
      refine ⟨g, hquiet (hi.watcherMoves nofun rfl rfl rfl rfl rfl (Nat.le_refl _) hlog (.build hu ?_ hfold) hi.kept)⟩
      exact hm.apply b
  | @buildFails b todo config new =>
    cases hknows with
    | build hu hm =>
      refine ⟨g, hi.watcherMoves nofun rfl rfl rfl rfl rfl (Nat.le_refl _) ?_ (.count nofun) fun _ _ => hu.before⟩
      exact hm.destroy_logged (Nat.ne_of_gt hu.fresh) hu.counted
  | built =>
    cases hknows with
    | build hu _ hfold =>
      cases hfold
      exact ⟨g, hquiet (hi.watcherMoves nofun rfl rfl rfl rfl rfl (Nat.le_refl _) hlog (.wantLock hu) hi.kept)⟩
  | lock hfree => exact ⟨g, hquiet (hi.takeLock hfree)⟩
  | move => exact ⟨g, hquiet hi.move⟩
  | unlock =>
    obtain ⟨g', hi'⟩ := hi.unlock
    exact ⟨g', hquiet hi'⟩
  | close =>
    cases hknows with
    | @close o hb hu hlt =>
      have hdestroyed := (Pointers.madeFrom_generation o).destroy_logged (Nat.ne_of_lt hlt) (Nat.lt_trans hlt hcounted)
      exact ⟨g, hquiet (hi.watcherMoves nofun rfl rfl rfl rfl rfl (Nat.le_refl _) ⟨hdestroyed.1, hlog.2⟩
        (.stop hu hlt) hi.kept)⟩
  | closeThrows =>
    cases hknows with
    | @close o hb hu hlt =>
      have hdestroyed := (Pointers.madeFrom_generation o).destroy_logged (Nat.ne_of_lt hlt) (Nat.lt_trans hlt hcounted)
      exact ⟨g, hi.watcherMoves nofun rfl rfl rfl rfl rfl (Nat.le_refl _) hdestroyed (.count nofun)
        fun hq => absurd hq.2 Bool.noConfusion⟩
  | stop =>
    cases hknows with
    | @stop o hu hlt =>
      have hdestroyed := (Pointers.madeFrom_generation o).destroy_logged (Nat.ne_of_lt hlt) (Nat.lt_trans hlt hcounted)
      exact ⟨g, hquiet (hi.watcherMoves nofun rfl rfl rfl rfl rfl (Nat.le_refl _) ⟨hlog.1, hdestroyed.2⟩
        (.preInit hu) hi.kept)⟩
  | preInit =>
    cases hknows with
    | preInit hu =>
      exact ⟨g, hquiet (hi.watcherMoves nofun rfl rfl rfl rfl rfl (Nat.le_refl _) hlog (.count fun _ => hu) hi.kept)⟩
  | reloaded =>
    cases hknows with
    | count hu =>
      exact ⟨g, hi.watcherMoves nofun rfl rfl rfl rfl rfl (Nat.le_refl _) hlog .sleep fun _ hf =>
        absurd ((hu rfl).symm.trans hf) Bool.false_ne_true⟩
  | reloadError =>
    exact ⟨g, hquiet (hi.watcherMoves nofun rfl rfl rfl rfl rfl (Nat.le_refl _) hlog .sleep hi.kept)⟩

/-! ### The main thread -/

/-- The shutdown takes the engine in place or its manager down, when nobody else is left. -/
theorem retire {m' : Main} (hi : ServerInv quiet g ⟨sh, hs, w, m⟩) (hm : m.joined = true) (hd : m.drained = true)
    (lock : RwLock) (closed stopped : List Nat) (hlock : lock.Guards 0 (if m'.writes then 1 else 0))
    (hclosed : ∀ x ∈ closed, x ∈ sh.closed ∨ x = g) (hstopped : ∀ x ∈ stopped, x ∈ sh.stopped ∨ x = g)
    (hm' : m'.retired = true) : ServerInv quiet g ⟨{ sh with lock, closed, stopped }, hs, w, m'⟩ := by
  obtain rfl : w = .joined := hi.joined hm
  obtain rfl : hs = [] := hi.drained hd
  exact {
    lock := by
      show lock.Guards 0 (0 + _)
      rwa [Nat.zero_add]
    handlers := nofun
    watcher := .joined
    joined := fun _ => rfl
    drained := fun _ => rfl
    inFlight := hi.inFlight
    settled := hi.settled
    counted := hi.counted
    logged := by
      refine ⟨fun x hx => ?_, fun x hx => ?_⟩
      · rcases hclosed x hx with hx | rfl
        · exact hi.logged.1 x hx
        · exact hi.counted
      · rcases hstopped x hx with hx | rfl
        · exact hi.logged.2 x hx
        · exact hi.counted
    live := fun hr => absurd (hm'.symm.trans hr) Bool.noConfusion
    kept := hi.kept }

/-- The locked part of the shutdown: the generation in place, and the lock with nobody else at it. -/
theorem retiring (hi : ServerInv quiet g ⟨sh, hs, w, m⟩) (hm : m.joined = true) (hd : m.drained = true)
    (hw : m.writes = true) : sh.pointers = .generation g ∧ sh.lock.Guards 0 1 := by
  have hlock := hi.lock
  have hsettled := hi.settled
  obtain rfl : w = .joined := hi.joined hm
  obtain rfl : hs = [] := hi.drained hd
  rw [hw] at hlock
  exact ⟨hsettled rfl, hlock⟩

end ServerInv

/-- What every step keeps. -/
theorem ServerStep.inv {quiet : Prop} {g : Nat} {s s' : ServerState} {threw : Bool} (hstep : ServerStep s threw s')
    (hi : ServerInv quiet g s) : ∃ g', ServerInv (quiet ∧ threw = false) g' s' := by
  have hquiet {s' : ServerState} (h : ServerInv quiet g s') : ∃ g', ServerInv (quiet ∧ false = false) g' s' :=
    ⟨g, h.weaken And.left⟩
  cases hstep with
  | @handler pre h post sh w m sh' h' hstep =>
    exact hquiet (((hi.perm List.perm_middle.symm).handlerStep hstep).perm List.perm_middle)
  | watcher hstep => exact hi.watcherStep hstep
  | accept =>
    refine hquiet (hi.frame ⟨rfl, rfl, rfl, rfl, rfl, rfl, rfl⟩ ?_ ?_ ?_ nofun nofun id)
    · rw [List.countP_cons_of_neg Bool.false_ne_true]
      exact hi.lock
    · intro x hx
      rcases List.mem_cons.mp hx with rfl | hx
      · exact .idle
      · exact hi.handlers x hx
    · exact congrArg (· + 1) hi.inFlight
  | @hangUp sh pre post w m =>
    have hi := hi.perm List.perm_middle.symm
    refine hquiet (hi.frame ⟨rfl, rfl, rfl, rfl, rfl, rfl, rfl⟩ ?_ ?_ ?_ hi.joined ?_ id)
    · have hlock := hi.lock
      rwa [List.countP_cons_of_neg Bool.false_ne_true] at hlock
    · exact fun x hx => hi.handlers x (List.mem_cons_of_mem _ hx)
    · show sh.inFlight - 1 = (pre ++ post).length
      rw [hi.inFlight]
      rfl
    · exact fun hm => absurd (hi.drained hm) (List.cons_ne_nil _ _)
  | signal =>
    exact hquiet (hi.frame ⟨rfl, rfl, rfl, rfl, rfl, rfl, rfl⟩ hi.lock hi.handlers hi.inFlight hi.joined hi.drained id)
  | endLoop =>
    exact hquiet (hi.frame ⟨rfl, rfl, rfl, rfl, rfl, rfl, rfl⟩ hi.lock hi.handlers hi.inFlight nofun nofun id)
  | join =>
    exact hquiet (hi.frame ⟨rfl, rfl, rfl, rfl, rfl, rfl, rfl⟩ hi.lock hi.handlers hi.inFlight (fun _ => rfl) nofun id)
  | @drain sh hs w hzero =>
    refine hquiet (hi.frame ⟨rfl, rfl, rfl, rfl, rfl, rfl, rfl⟩ hi.lock hi.handlers hi.inFlight hi.joined ?_ id)
    exact fun _ => List.length_eq_zero_iff.mp (hi.inFlight.symm.trans hzero)
  | lock hfree =>
    exact hquiet (hi.frame ⟨rfl, rfl, rfl, rfl, rfl, rfl, rfl⟩ (hi.lock.lock hfree) hi.handlers hi.inFlight hi.joined
      hi.drained id)
  | close =>
    obtain ⟨hp, hlock⟩ := hi.retiring rfl rfl rfl
    refine hquiet (hi.retire rfl rfl _ _ _ hlock (fun x hx => ?_) (fun _ hx => .inl hx) rfl)
    rw [hp] at hx
    exact (List.mem_cons.mp hx).symm
  | closeThrows =>
    obtain ⟨hp, hlock⟩ := hi.retiring rfl rfl rfl
    refine hquiet (hi.retire rfl rfl _ _ _ hlock.unlock (fun x hx => ?_) (fun _ hx => .inl hx) rfl)
    rw [hp] at hx
    exact (List.mem_cons.mp hx).symm
  | stop =>
    obtain ⟨hp, hlock⟩ := hi.retiring rfl rfl rfl
    refine hquiet (hi.retire rfl rfl _ _ _ hlock.unlock (fun _ hx => .inl hx) (fun x hx => ?_) rfl)
    rw [hp] at hx
    exact (List.mem_cons.mp hx).symm

/-! ## Runs -/

/-- `run` starts with one generation in place. -/
theorem loaded_inv (watch : Bool) : ServerInv True 0 (loaded watch) where
  lock := by
    cases watch with
    | true => exact ⟨rfl, rfl, nofun⟩
    | false => exact ⟨rfl, rfl, nofun⟩
  handlers := nofun
  watcher := by
    cases watch with
    | true => exact .sleep
    | false => exact .joined
  joined := nofun
  drained := nofun
  inFlight := rfl
  settled _ := rfl
  counted := Nat.zero_lt_one
  logged := ⟨nofun, nofun⟩
  live _ := ⟨nofun, nofun⟩
  kept _ := nofun

/-- What the claim asks of a state: whoever is inside a shared section sees the engine, the manager and the
collector of one generation, neither closed nor stopped; an execution runs on these; a reload that has failed
has changed nothing that requests see. -/
structure Consistent (s : ServerState) : Prop where
  reads : ∀ h ∈ s.handlers, h.reads = true → ∃ g, s.shared.pointers = .generation g ∧ s.shared.Live g
  executes : ∀ e m, .executing e m ∈ s.handlers → e.provider = some e.config ∧ m = some e.config ∧ s.shared.Live e.config
  failed : s.shared.failed = true → s.shared.view = s.shared.attempt

namespace ServerInv
variable {quiet : Prop} {g : Nat} {s : ServerState}

theorem reads (hi : ServerInv quiet g s) {h : Handler} (hh : h ∈ s.handlers) (hr : h.reads = true) :
    s.shared.pointers = .generation g ∧ s.shared.Live g := by
  have hpos : 0 < s.handlers.countP Handler.reads := List.countP_pos_iff.mpr ⟨h, hh, hr⟩
  have hzero := (hi.lock.no_writer hpos).1
  refine ⟨hi.settled ?_, hi.live ?_⟩
  · cases hw : s.watcher.writes with
    | false => rfl
    | true =>
      rw [hw, if_pos rfl] at hzero
      omega
  · cases hm : s.main.retired with
    | false => rfl
    | true =>
      have hd : s.main.drained = true := by
        cases h : s.main with
        | stop | returned => rfl
        | accept | join | drain | wantLock | close =>
          rw [h] at hm
          cases hm
      rw [hi.drained hd] at hh
      cases hh

theorem executes (hi : ServerInv quiet g s) {e : Engine} {m : Option Nat} (hh : .executing e m ∈ s.handlers) :
    e = ⟨g, some g⟩ ∧ m = some g ∧ s.shared.Live g := by
  obtain ⟨hp, hl⟩ := hi.reads hh rfl
  cases hi.handlers _ hh with
  | executing he hm =>
    rw [hp] at he hm
    exact ⟨(Option.some.inj he).symm, hm.symm, hl⟩

theorem consistent (hi : ServerInv quiet g s) (hq : quiet) : Consistent s where
  reads _ hh hr := ⟨g, hi.reads hh hr⟩
  executes _ _ hh := by
    obtain ⟨rfl, hm, hl⟩ := hi.executes hh
    exact ⟨rfl, hm, hl⟩
  failed hf := (hi.kept hq hf).symm

end ServerInv

/-- A `close` that throws after the swap: the reload has failed, and its engine is the one in place. -/
theorem ServerStep.not_consistent {quiet : Prop} {g : Nat} {s s' : ServerState} (hi : ServerInv quiet g s)
    (hstep : ServerStep s true s') : ¬ Consistent s' := by
  intro hc
  cases hstep with
  | watcher hstep =>
    have hknows := hi.watcher
    have hp := hi.settled
    cases hstep with
    | closeThrows =>
      cases hknows with
      | close hb _ hlt =>
        have hview := congrArg View.pointers (hc.failed rfl)
        have hengine := congrArg Pointers.engine ((hp rfl).symm.trans (hview.trans hb))
        exact Nat.ne_of_gt hlt (congrArg Engine.config (Option.some.inj hengine))

/-- Whatever throws, an execution runs on one generation, which is neither closed nor stopped. -/
theorem ServerRun.executes {quiet : Prop} {g : Nat} {s : ServerState} {trace : List (Bool × ServerState)}
    (hi : ServerInv quiet g s) (hrun : ServerRun s trace) :
    ∀ x ∈ trace, ∀ e m, .executing e m ∈ x.2.handlers → ∃ g, e = ⟨g, some g⟩ ∧ m = some g ∧ x.2.shared.Live g := by
  induction hrun generalizing quiet g with
  | nil => exact fun _ hx => absurd hx List.not_mem_nil
  | cons hstep _ ih =>
    obtain ⟨g', hi'⟩ := hstep.inv hi
    rw [List.forall_mem_cons]
    exact ⟨fun _ _ hh => ⟨g', hi'.executes hh⟩, ih hi'⟩

/-- A run keeps every state consistent exactly when no `close` of an engine swapped out throws. -/
theorem ServerRun.consistent_iff {g : Nat} {s : ServerState} {trace : List (Bool × ServerState)}
    (hi : ServerInv True g s) (hrun : ServerRun s trace) :
    (∀ x ∈ trace, Consistent x.2) ↔ ∀ x ∈ trace, x.1 = false := by
  induction hrun generalizing g with
  | nil => exact iff_of_true (fun _ hx => absurd hx List.not_mem_nil) fun _ hx => absurd hx List.not_mem_nil
  | @cons s threw s' rest hstep _ ih =>
    rw [List.forall_mem_cons, List.forall_mem_cons]
    cases threw with
    | false =>
      obtain ⟨g', hi'⟩ := hstep.inv hi
      have hi' : ServerInv True g' s' := hi'.weaken fun _ => ⟨trivial, rfl⟩
      exact and_congr (iff_of_true (hi'.consistent trivial) rfl) (ih hi')
    | true => exact iff_of_false (fun h => hstep.not_consistent hi h.1) (fun h => Bool.noConfusion h.1)

/-- In every run of the server, whatever the order of requests, reloads and shutdown: executions, reloads and
what requests see are consistent in all its states if and only if no `close` of an engine swapped out throws. -/
theorem snapshot_consistent_iff (watch : Bool) {trace : List (Bool × ServerState)}
    (hrun : ServerRun (loaded watch) trace) : (∀ x ∈ trace, Consistent x.2) ↔ ∀ x ∈ trace, x.1 = false :=
  hrun.consistent_iff (loaded_inv watch)

/-- A request of a server that is not reloaded comes to execute. -/
theorem snapshot_consistent_executing : ∃ trace, ServerRun (loaded false) trace ∧
    (∃ x ∈ trace, .executing ⟨0, some 0⟩ (some 0) ∈ x.2.handlers) ∧ ∀ x ∈ trace, Consistent x.2 := by
  have hrun : ServerRun (loaded false) _ :=
    .cons .accept <| .cons (@ServerStep.handler [] _ [] _ _ _ _ _ .request) <|
    .cons (@ServerStep.handler [] _ [] _ _ _ _ _ (.lockShared rfl)) <|
    .cons (@ServerStep.handler [] _ [] _ _ _ _ _ (.snapshot rfl)) <|
    .cons (@ServerStep.handler [] _ [] _ _ _ _ _ (.execute rfl)) .nil
  refine ⟨_, hrun, ⟨_, .tail _ (.tail _ (.tail _ (.tail _ (.head _)))), ?_⟩, (snapshot_consistent_iff false hrun).mpr ?_⟩
  · exact List.mem_cons_self
  · simp

/-- The `close` of the engine swapped out throws: the reload is counted as failed and its engine serves on. -/
theorem close_throws_after_swap :
    ¬ ∀ (watch : Bool) (trace : List (Bool × ServerState)), ServerRun (loaded watch) trace →
      ∀ x ∈ trace, Consistent x.2 := by
  intro h
  have hrun : ServerRun (loaded true) _ :=
    .cons (.watcher (.wake rfl)) <| .cons (.watcher .loadConfig) <| .cons (.watcher .build) <|
    .cons (.watcher .build) <| .cons (.watcher .build) <| .cons (.watcher .build) <| .cons (.watcher .build) <|
    .cons (.watcher .build) <| .cons (.watcher .build) <| .cons (.watcher .built) <|
    .cons (.watcher (.lock ⟨rfl, rfl⟩)) <| .cons (.watcher .move) <| .cons (.watcher .move) <|
    .cons (.watcher .move) <| .cons (.watcher .move) <| .cons (.watcher .move) <| .cons (.watcher .move) <|
    .cons (.watcher .unlock) <| .cons (.watcher .closeThrows) .nil
  have hquiet := (hrun.consistent_iff (loaded_inv true)).mp (h true _ hrun)
  simp at hquiet

end Pineapple.CppServer
