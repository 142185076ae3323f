import Mathlib.Algebra.Order.Group.Nat
import Mathlib.Data.List.Pairwise
import Mathlib.Logic.Function.Basic
import Mathlib.Logic.Relation
import Mathlib.Tactic.Common

/-! # Memory from the request arena (`arena.hpp`)

Every thread that works on a request carves blocks off a chunk of its own, without a lock; a thread whose chunk does not
hold the next block fetches another chunk from the central arena, under its mutex. Nothing is given back before the
request ends. Addresses are natural numbers below 2^64. -/

namespace Pineapple.Arena
open Relation

def addressBound : Nat := 2 ^ 64

/-- `kChunkSize` -/
def chunkSize : Nat := 32 * 1024

/-- `alignof(std::max_align_t)` -/
def maxAlign : Nat := 16

/-- `std::align`; nothing where the block does not fit. -/
def align (alignment bytes ptr space : Nat) : Option Nat :=
  let aligned := (ptr + (alignment - 1)) / alignment * alignment
  if bytes ≤ space ∧ aligned - ptr ≤ space - bytes then some aligned else none

/-- `ThreadLocalBump`: what is left of the chunk. -/
structure Bump where
  cursor : Nat := 0
  limit : Nat := 0
deriving DecidableEq

namespace Bump

/-- A block of the chunk at hand. The null pointer counts as no block. -/
def carve (b : Bump) (bytes alignment : Nat) : Option (Nat × Bump) :=
  match align alignment bytes b.cursor (b.limit - b.cursor) with
  | some ptr => if ptr = 0 then none else some (ptr, { b with cursor := ptr + bytes })
  | none => none

/-- The size of the chunk that `do_allocate` asks for; the sum wraps around. -/
def wanted (bytes alignment : Nat) : Nat :=
  if chunkSize < (bytes + alignment) % addressBound then (bytes + alignment) % addressBound else chunkSize

/-- `do_allocate`, where the central arena has a chunk at `base`; nothing where it aborts. -/
def doAllocate (b : Bump) (bytes alignment base : Nat) : Option (Nat × Bump) :=
  match b.carve bytes alignment with
  | some r => some r
  | none => carve ⟨base, base + wanted bytes alignment⟩ bytes alignment

end Bump

/-! ## Spans of addresses -/

structure Span where
  base : Nat
  size : Nat

namespace Span

def Apart (a b : Span) : Prop :=
  ∀ x, a.base ≤ x → x < a.base + a.size → b.base ≤ x → x < b.base + b.size → False

def Within (a b : Span) : Prop :=
  b.base ≤ a.base ∧ a.base + a.size ≤ b.base + b.size

variable {a b c d : Span}

theorem Apart.symm (h : Apart a b) : Apart b a :=
  fun x hb hb' ha ha' => h x ha ha' hb hb'

theorem Apart.mono (h : Apart c d) (ha : a.Within c) (hb : b.Within d) : Apart a b := by
  intro x h1 h2 h3 h4
  obtain ⟨ha, ha'⟩ := ha
  obtain ⟨hb, hb'⟩ := hb
  exact h x (by omega) (by omega) (by omega) (by omega)

theorem Within.refl (a : Span) : a.Within a :=
  ⟨Nat.le_refl _, Nat.le_refl _⟩

theorem Within.trans (h : a.Within b) (h' : b.Within c) : a.Within c :=
  ⟨h'.1.trans h.1, h.2.trans h'.2⟩

theorem apart_empty (h : a.size = 0) : Apart a b := by
  intro x h1 h2
  omega

end Span

/-- What is left of the chunk. -/
def Bump.rest (b : Bump) : Span := ⟨b.cursor, b.limit - b.cursor⟩

section Align
variable {alignment bytes ptr space p base : Nat} {b b' : Bump}

theorem align_spec (halign : 0 < alignment) (h : align alignment bytes ptr space = some p) :
    alignment ∣ p ∧ ptr ≤ p ∧ p + bytes ≤ ptr + space := by
  unfold align at h
  dsimp only at h
  split at h
  · next hfits =>
    obtain rfl := Option.some.inj h
    have hup : ptr ≤ (ptr + (alignment - 1)) / alignment * alignment := by
      have hdiv := Nat.div_add_mod (ptr + (alignment - 1)) alignment
      have hmod := Nat.mod_lt (ptr + (alignment - 1)) halign
      rw [Nat.mul_comm] at hdiv
      omega
    exact ⟨Nat.dvd_mul_left _ _, hup, by omega⟩
  · cases h

theorem align_isSome (ptr : Nat) (halign : 0 < alignment) (h : bytes + alignment ≤ space) :
    ∃ p, align alignment bytes ptr space = some p := by
  have hle : (ptr + (alignment - 1)) / alignment * alignment ≤ ptr + (alignment - 1) := Nat.div_mul_le_self _ _
  unfold align
  dsimp only
  rw [if_pos ⟨by omega, by omega⟩]
  exact ⟨_, rfl⟩

/-- A block comes off the front of what is left. -/
theorem carve_spec (halign : 0 < alignment) (h : b.carve bytes alignment = some (p, b')) :
    alignment ∣ p ∧ p ≠ 0 ∧ b.cursor ≤ p ∧ b' = { b with cursor := p + bytes } ∧
      (b.cursor ≤ b.limit → p + bytes ≤ b.limit) := by
  unfold Bump.carve at h
  split at h
  · next q hq =>
    split at h
    · cases h
    · next hne =>
      obtain ⟨rfl, rfl⟩ := Prod.mk.inj (Option.some.inj h)
      obtain ⟨hdvd, hle, hfit⟩ := align_spec halign hq
      exact ⟨hdvd, hne, hle, rfl, fun hcursor => by omega⟩
  · cases h

end Align

/-! ## The threads of a request -/

structure Block where
  thread : Nat
  span : Span
  alignment : Nat

structure State where
  bumps : Nat → Bump := fun _ => {}
  /-- the chunks of the central arena, with the threads that fetched them -/
  chunks : List (Nat × Span) := []
  blocks : List Block := []

/-- What the central arena's `std::pmr::monotonic_buffer_resource` may answer. -/
structure State.Fresh (s : State) (span : Span) : Prop where
  aligned : maxAlign ∣ span.base
  nonnull : 0 < span.base
  bounded : span.base + span.size < addressBound
  apart : ∀ c ∈ s.chunks, span.Apart c.2

/-- Thread `i` has a block; `base` is where a chunk was fetched, if one was. -/
def State.hand (s : State) (i bytes alignment base ptr : Nat) (b : Bump) : State where
  bumps := Function.update s.bumps i b
  chunks := match (s.bumps i).carve bytes alignment with
    | some _ => s.chunks
    | none => (i, ⟨base, Bump.wanted bytes alignment⟩) :: s.chunks
  blocks := ⟨i, ⟨ptr, bytes⟩, alignment⟩ :: s.blocks

inductive Step : State → State → Prop
  | allocate {s i bytes k base ptr b} :
      ((s.bumps i).carve bytes (2 ^ k) = none → s.Fresh ⟨base, Bump.wanted bytes (2 ^ k)⟩) →
      (s.bumps i).doAllocate bytes (2 ^ k) base = some (ptr, b) → Step s (s.hand i bytes (2 ^ k) base ptr b)

def Reachable : State → Prop :=
  ReflTransGen Step {}

structure Inv (s : State) : Prop where
  chunks : s.chunks.Pairwise fun c d => c.2.Apart d.2
  bounded : ∀ i, (s.bumps i).cursor ≤ (s.bumps i).limit ∧ (s.bumps i).limit < addressBound
  /-- a thread carves from a chunk of its own, once it has one -/
  own : ∀ i, (s.bumps i).limit = 0 ∨ ∃ c ∈ s.chunks, c.1 = i ∧ (s.bumps i).rest.Within c.2
  held : ∀ a ∈ s.blocks, a.alignment ∣ a.span.base ∧ a.span.base ≠ 0 ∧ ∃ c ∈ s.chunks, c.1 = a.thread ∧ a.span.Within c.2
  apart : s.blocks.Pairwise fun a b => a.span.Apart b.span
  unused : ∀ a ∈ s.blocks, ∀ i, a.span.Apart (s.bumps i).rest
  separate : ∀ i j, i ≠ j → (s.bumps i).rest.Apart (s.bumps j).rest

namespace Inv
variable {s t : State} {i bytes alignment base ptr : Nat} {b : Bump}

theorem init : Inv {} where
  chunks := .nil
  bounded _ := ⟨le_rfl, Nat.two_pow_pos 64⟩
  own _ := Or.inl rfl
  held _ ha := absurd ha List.not_mem_nil
  apart := .nil
  unused _ ha := absurd ha List.not_mem_nil
  separate _ _ _ := Span.apart_empty rfl

/-- The block and what is left of the chunk come from a span that only thread `i` carves from. -/
theorem given (h : Inv s) (span : Span) {chunks : List (Nat × Span)} (hsub : s.chunks ⊆ chunks)
    (hchunks : chunks.Pairwise fun c d => c.2.Apart d.2) (hown : ∃ c ∈ chunks, c.1 = i ∧ span.Within c.2)
    (hblocks : ∀ a ∈ s.blocks, a.span.Apart span) (hothers : ∀ j, j ≠ i → (s.bumps j).rest.Apart span)
    (hblock : Span.Within ⟨ptr, bytes⟩ span) (hrest : b.rest.Within span) (hcursor : b.cursor = ptr + bytes)
    (hbound : b.cursor ≤ b.limit ∧ b.limit < addressBound) (hdvd : alignment ∣ ptr) (hne : ptr ≠ 0) :
    Inv ⟨Function.update s.bumps i b, chunks, ⟨i, ⟨ptr, bytes⟩, alignment⟩ :: s.blocks⟩ := by
  have hself : Function.update s.bumps i b i = b := Function.update_self ..
  have hother : ∀ j, j ≠ i → Function.update s.bumps i b j = s.bumps j := fun j hj => Function.update_of_ne hj ..
  obtain ⟨c, hc, hci, hwithin⟩ := hown
  refine ⟨hchunks, fun j => ?_, fun j => ?_, fun a ha => ?_, ?_, fun a ha j => ?_, fun j k hjk => ?_⟩
  · by_cases hj : j = i
    · subst hj
      dsimp only
      rwa [hself]
    · dsimp only
      rw [hother j hj]
      exact h.bounded j
  · by_cases hj : j = i
    · subst hj
      dsimp only
      rw [hself]
      exact Or.inr ⟨c, hc, hci, hrest.trans hwithin⟩
    · dsimp only
      rw [hother j hj]
      exact (h.own j).imp_right fun ⟨d, hd, hdj, hdw⟩ => ⟨d, hsub hd, hdj, hdw⟩
  · rcases List.mem_cons.mp ha with rfl | ha
    · exact ⟨hdvd, hne, c, hc, hci, hblock.trans hwithin⟩
    · obtain ⟨hd, hn, d, hdm, hdi, hdw⟩ := h.held a ha
      exact ⟨hd, hn, d, hsub hdm, hdi, hdw⟩
  · exact List.pairwise_cons.mpr ⟨fun a ha => ((hblocks a ha).mono (.refl _) hblock).symm, h.apart⟩
  · by_cases hj : j = i
    · subst hj
      dsimp only
      rw [hself]
      rcases List.mem_cons.mp ha with rfl | ha
      · intro x _ h2 h3 _
        rw [show b.rest.base = ptr + bytes from hcursor] at h3
        exact absurd h2 (not_lt.mpr h3)
      · exact (hblocks a ha).mono (.refl _) hrest
    · dsimp only
      rw [hother j hj]
      rcases List.mem_cons.mp ha with rfl | ha
      · exact ((hothers j hj).mono (.refl _) hblock).symm
      · exact h.unused a ha j
  · dsimp only
    by_cases hj : j = i
    · subst hj
      rw [hself, hother k fun hk => hjk hk.symm]
      exact ((hothers k fun hk => hjk hk.symm).mono (.refl _) hrest).symm
    · rw [hother j hj]
      by_cases hk : k = i
      · subst hk
        rw [hself]
        exact (hothers j hj).mono (.refl _) hrest
      · rw [hother k hk]
        exact h.separate j k hjk

/-- What a bump carves lies in what was left. -/
theorem within_rest {b b' : Bump} (hle : b.cursor ≤ b.limit) (hcursor : b.cursor ≤ ptr)
    (hb : b' = { b with cursor := ptr + bytes }) (hfit : ptr + bytes ≤ b.limit) :
    Span.Within ⟨ptr, bytes⟩ b.rest ∧ b'.rest.Within b.rest := by
  subst hb
  unfold Span.Within Bump.rest
  dsimp only
  omega

theorem step (h : Inv s) (hstep : Step s t) : Inv t := by
  obtain ⟨hfresh, hdo⟩ := hstep
  rename_i i bytes k base ptr b
  have hpos : 0 < 2 ^ k := Nat.two_pow_pos k
  unfold Bump.doAllocate at hdo
  unfold State.hand
  cases hcarve : (s.bumps i).carve bytes (2 ^ k) with
  | some r =>
    rw [hcarve] at hdo
    obtain rfl : r = (ptr, b) := Option.some.inj hdo
    obtain ⟨hle, hlimit⟩ := h.bounded i
    obtain ⟨hdvd, hne, hcursor, hb, hfit⟩ := carve_spec hpos hcarve
    obtain ⟨hblock, hrest⟩ := within_rest hle hcursor hb (hfit hle)
    refine h.given (s.bumps i).rest (List.Subset.refl _) h.chunks ?_ (fun a ha => h.unused a ha i)
      (fun j hj => h.separate j i hj) hblock hrest (by rw [hb]) (by rw [hb]; exact ⟨hfit hle, hlimit⟩) hdvd hne
    refine (h.own i).resolve_left fun hzero => ?_
    have := hfit hle
    omega
  | none =>
    rw [hcarve] at hdo
    have hnew := hfresh hcarve
    obtain ⟨hdvd, hne, hcursor, hb, hfit⟩ := carve_spec hpos hdo
    have hle : base ≤ base + Bump.wanted bytes (2 ^ k) := Nat.le_add_right _ _
    obtain ⟨hblock, hrest⟩ := within_rest hle hcursor hb (hfit hle)
    have hspan : Bump.rest ⟨base, base + Bump.wanted bytes (2 ^ k)⟩ = ⟨base, Bump.wanted bytes (2 ^ k)⟩ := by
      unfold Bump.rest
      rw [Nat.add_sub_cancel_left]
    rw [hspan] at hblock hrest
    have hapart : ∀ {a : Span} {c : Nat × Span}, c ∈ s.chunks → a.Within c.2 →
        a.Apart ⟨base, Bump.wanted bytes (2 ^ k)⟩ :=
      fun hc hw => ((hnew.apart _ hc).mono (.refl _) hw).symm
    refine h.given ⟨base, Bump.wanted bytes (2 ^ k)⟩ (List.subset_cons_self ..)
      (List.pairwise_cons.mpr ⟨hnew.apart, h.chunks⟩) ⟨_, List.mem_cons_self, rfl, .refl _⟩ (fun a ha => ?_)
      (fun j hj => ?_) hblock hrest (by rw [hb]) (by rw [hb]; exact ⟨hfit hle, hnew.bounded⟩) hdvd hne
    · obtain ⟨-, -, c, hc, -, hw⟩ := h.held a ha
      exact hapart hc hw
    · rcases h.own j with hzero | ⟨c, hc, -, hw⟩
      · exact Span.apart_empty (by unfold Bump.rest; dsimp only; omega)
      · exact hapart hc hw

theorem reachable (h : Reachable s) : Inv s := by
  induction h with
  | refl => exact init
  | tail _ hstep ih => exact ih.step hstep

end Inv

/-- No chunk below the bound holds a block whose size and alignment come to more. -/
theorem carve_none {alignment bytes : Nat} {b : Bump} (halign : 0 < alignment) (hle : b.cursor ≤ b.limit)
    (hlimit : b.limit < addressBound) (hbig : addressBound ≤ bytes + alignment) : b.carve bytes alignment = none := by
  cases h : b.carve bytes alignment with
  | none => rfl
  | some r =>
    obtain ⟨p, b'⟩ := r
    obtain ⟨hdvd, hne, -, -, hfit⟩ := carve_spec halign h
    have hp := Nat.le_of_dvd (Nat.pos_of_ne_zero hne) hdvd
    have := hfit hle
    omega

theorem carve_fresh {alignment bytes base : Nat} (halign : 0 < alignment) (hbase : 0 < base)
    (h : bytes + alignment < addressBound) :
    ((⟨base, base + Bump.wanted bytes alignment⟩ : Bump).carve bytes alignment).isSome = true := by
  have hwanted : bytes + alignment ≤ Bump.wanted bytes alignment := by
    unfold Bump.wanted
    rw [Nat.mod_eq_of_lt h]
    split <;> omega
  obtain ⟨p, hp⟩ := align_isSome base halign (Nat.le_trans hwanted (Nat.le_of_eq (Nat.add_sub_cancel_left ..).symm))
  have hle := (align_spec halign hp).2.1
  unfold Bump.carve
  dsimp only
  rw [hp]
  dsimp only
  rw [if_neg (by omega)]
  rfl

/-- However the threads of a request take turns, the blocks they hold do not overlap, each is aligned and inside a chunk
of its own thread; and a request for a block aborts exactly if its size and alignment together leave the address range. -/
theorem arena_blocks_apart {s : State} (h : Reachable s) :
    s.blocks.Pairwise (fun a b => a.span.Apart b.span) ∧
      (∀ a ∈ s.blocks, a.alignment ∣ a.span.base ∧ a.span.base ≠ 0 ∧
        ∃ c ∈ s.chunks, c.1 = a.thread ∧ a.span.Within c.2) ∧
      s.chunks.Pairwise (fun c d => c.2.Apart d.2) ∧
      ∀ i bytes k base, s.Fresh ⟨base, Bump.wanted bytes (2 ^ k)⟩ →
        ((s.bumps i).doAllocate bytes (2 ^ k) base = none ↔ addressBound ≤ bytes + 2 ^ k) := by
  have hinv := Inv.reachable h
  refine ⟨hinv.apart, hinv.held, hinv.chunks, fun i bytes k base hfresh => ⟨fun hnone => ?_, fun hbig => ?_⟩⟩
  · by_contra hlt
    have hsome := carve_fresh (Nat.two_pow_pos k) hfresh.nonnull (not_le.mp hlt)
    unfold Bump.doAllocate at hnone
    split at hnone
    · cases hnone
    · rw [hnone] at hsome
      cases hsome
  · obtain ⟨hle, hlimit⟩ := hinv.bounded i
    unfold Bump.doAllocate
    rw [carve_none (Nat.two_pow_pos k) hle hlimit hbig]
    exact carve_none (Nat.two_pow_pos k) (Nat.le_add_right ..) hfresh.bounded hbig

/-- Two threads, each with a first block. -/
def twoThreads : State :=
  (State.hand {} 0 10 8 4096 4096 ⟨4106, 36864⟩).hand 1 24 16 65536 65536 ⟨65560, 98304⟩

theorem reachable_twoThreads : Reachable twoThreads := by
  have hfirst : Step {} (State.hand {} 0 10 8 4096 4096 ⟨4106, 36864⟩) :=
    .allocate (k := 3) (fun _ => ⟨by decide, by decide, by decide, nofun⟩) (by decide)
  refine ReflTransGen.tail (.single hfirst) (.allocate (k := 4) (fun _ => ⟨by decide, by decide, by decide, ?_⟩) (by decide))
  intro c hc x hfrom _ _ hto
  rw [List.mem_singleton.mp hc] at hto
  exact absurd (Nat.lt_of_le_of_lt hfrom hto) (by decide)

theorem arena_blocks_apart_two : twoThreads.blocks.Pairwise (fun a b => a.span.Apart b.span) ∧
    ∀ i bytes k base, twoThreads.Fresh ⟨base, Bump.wanted bytes (2 ^ k)⟩ →
      ((twoThreads.bumps i).doAllocate bytes (2 ^ k) base = none ↔ addressBound ≤ bytes + 2 ^ k) :=
  ⟨(arena_blocks_apart reachable_twoThreads).1, (arena_blocks_apart reachable_twoThreads).2.2.2⟩

end Pineapple.Arena
