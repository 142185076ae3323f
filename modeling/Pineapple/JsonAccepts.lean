import Pineapple.Lib.Except
import Pineapple.JsonComplete

/-! # Which texts the JSON parser accepts -/

namespace Pineapple.Json
variable {g g' : Lexicon} {s s' t : Bytes} {v : Value}

/-- What the parser takes: white space as `isspace` has it, numerals with digits missing or with leading zeros, any
byte in a string. -/
def relaxed : Lexicon where
  blank b := isSpace b = true
  number := Numeral.Scanned
  raw p := ∃ b, p = [b] ∧ b ≠ ascii '"' ∧ b ≠ ascii '\\'
  unpaired := False

/-! ## What is read was derived -/

theorem blanks_skipWs (s : Bytes) : Blanks relaxed s (skipWs s) := by
  induction s with
  | nil => exact .nil
  | cons b s ih =>
    by_cases hb : isSpace b = true
    · rw [show skipWs (b :: s) = skipWs s from List.dropWhile_cons_of_pos hb]
      exact .cons hb ih
    · rw [show skipWs (b :: s) = b :: s from List.dropWhile_cons_of_neg hb]
      exact .nil

theorem emit_eq_ok {p out : Bytes} {r : Except PineError (Bytes × Bytes)} (h : emit p <$> r = .ok (out, t)) :
    ∃ out', r = .ok (out', t) ∧ out = p ++ out' := by
  obtain ⟨⟨out', t'⟩, hr, heq⟩ := Except.map_eq_ok.mp h
  obtain ⟨rfl, rfl⟩ := Prod.mk.inj heq
  exact ⟨out', hr, rfl⟩

theorem chars_sound {out : Bytes} (h : parseChars s = .ok (out, t)) : Chars relaxed s out t := by
  fun_induction parseChars s generalizing out t
  case case2 =>
    obtain ⟨rfl, rfl⟩ := Prod.mk.inj (Except.ok.inj h)
    exact @Chars.close relaxed _
  case case6 hhex hhigh _ _ _ _ _ _ _ hxy _ hhex' hlow _ ih =>
    obtain ⟨out', hr, hout⟩ := emit_eq_ok h
    obtain ⟨rfl, rfl⟩ := hxy
    rw [hout]
    exact .pair hhex hhigh hhex' hlow (ih hr)
  case case10 hhex hhigh _ ih =>
    obtain ⟨out', hr, rfl⟩ := emit_eq_ok h
    exact .unicode hhex hhigh (ih hr)
  case case12 hesc _ ih =>
    obtain ⟨out', hr, rfl⟩ := emit_eq_ok h
    exact .escape hesc (ih hr)
  case case14 b s hquote hescape ih =>
    obtain ⟨out', hr, rfl⟩ := emit_eq_ok h
    have hraw : relaxed.raw [b] := ⟨b, rfl, hquote, hescape⟩
    exact .raw hraw (ih hr)
  all_goals exact absurd h nofun

theorem number_sound {d : Binary64} (h : parseNumber s = .ok (d, t)) :
    ∃ n : Numeral, n.Scanned ∧ n.value = some d ∧ s = n.text ++ t := by
  obtain ⟨htext, hscanned⟩ := scan_sound s
  unfold parseNumber at h
  dsimp only at h
  split at h
  · next d' hd =>
    obtain ⟨rfl, rfl⟩ := Prod.mk.inj (Except.ok.inj h)
    exact ⟨_, hscanned, hd, htext.symm⟩
  · exact absurd h nofun

theorem expect_sound {text : String} {w : Value} (h : expect text w s = .ok (v, t)) : v = w ∧ s = token text ++ t := by
  unfold expect at h
  split at h
  · next hprefix =>
    obtain ⟨rfl, rfl⟩ := Prod.mk.inj (Except.ok.inj h)
    obtain ⟨rest, rfl⟩ := hprefix
    rw [List.drop_left]
    exact ⟨rfl, rfl⟩
  · exact absurd h nofun

theorem string_sound {out : Bytes} (h : parseString s = .ok (out, t)) :
    ∃ k, s = ascii '"' :: k ∧ Chars relaxed k out t := by
  unfold parseString at h
  split at h
  · next k hk => exact ⟨k, consume_eq_some.mp hk, chars_sound h⟩
  · exact absurd h nofun

/-- The parse of a value at this depth. -/
def ValueSound (fuel : Nat) : Prop :=
  ∀ s v t, parseValue fuel s = .ok (v, t) → IsValue relaxed (skipWs s) v t

theorem member_sound {fuel : Nat} (hvalue : ValueSound fuel) {e : Bytes × Value}
    (h : parseMember (parseValue fuel) s = .ok (e, t)) : IsMember relaxed s e t := by
  rw [parseMember_eq] at h
  obtain ⟨⟨key, r⟩, hkey, h⟩ := Except.bind_eq_ok.mp h
  obtain ⟨k, hk, hchars⟩ := string_sound hkey
  dsimp only at h
  split at h
  · exact absurd h nofun
  · next r' hr' =>
    obtain ⟨⟨v, t'⟩, hv, h⟩ := Except.bind_eq_ok.mp h
    obtain ⟨rfl, rfl⟩ := Prod.mk.inj (Except.ok.inj h)
    have hderived := hvalue _ _ _ hv
    rw [skipWs_skipWs] at hderived
    exact .mk (hk ▸ blanks_skipWs s) hchars (consume_eq_some.mp hr' ▸ blanks_skipWs r) (blanks_skipWs r') hderived

theorem elements_sound {fuel : Nat} (hvalue : ∀ n < fuel, ValueSound n) {array : List Value}
    (h : parseElements fuel array s = .ok (v, t)) :
    ∃ vs, IsElements relaxed s vs t ∧ v = .array (array ++ vs) := by
  induction fuel generalizing array s with
  | zero => exact absurd h nofun
  | succ fuel ih =>
    rw [parseElements_succ] at h
    obtain ⟨⟨w, r⟩, hw, h⟩ := Except.bind_eq_ok.mp h
    have hderived := hvalue fuel (Nat.lt_succ_self _) _ _ _ hw
    rw [skipWs_skipWs] at hderived
    dsimp only at h
    split at h
    · next r' hr' =>
      obtain ⟨rfl, rfl⟩ := Prod.mk.inj (Except.ok.inj h)
      exact ⟨[w], .last (blanks_skipWs s) hderived (consume_eq_some.mp hr' ▸ blanks_skipWs r), rfl⟩
    · split at h
      · next r' hr' =>
        obtain ⟨vs, hvs, rfl⟩ := ih (fun n hn => hvalue n (Nat.lt_succ_of_lt hn)) h
        refine ⟨w :: vs, .more (blanks_skipWs s) hderived (consume_eq_some.mp hr' ▸ blanks_skipWs r) hvs, ?_⟩
        rw [List.append_assoc]
        rfl
      · exact absurd h nofun

theorem members_sound {fuel : Nat} (hvalue : ∀ n < fuel, ValueSound n) {object : List (Bytes × Value)}
    (h : parseMembers fuel object s = .ok (v, t)) :
    ∃ es, IsMembers relaxed s es t ∧ v = .object (emplaceAll object es) := by
  induction fuel generalizing object s with
  | zero => exact absurd h nofun
  | succ fuel ih =>
    rw [parseMembers_succ] at h
    obtain ⟨⟨e, r⟩, he, h⟩ := Except.bind_eq_ok.mp h
    have hderived := member_sound (hvalue fuel (Nat.lt_succ_self _)) he
    dsimp only at h
    split at h
    · next r' hr' =>
      obtain ⟨rfl, rfl⟩ := Prod.mk.inj (Except.ok.inj h)
      exact ⟨[e], .last hderived (consume_eq_some.mp hr' ▸ blanks_skipWs r), rfl⟩
    · split at h
      · next r' hr' =>
        obtain ⟨es, hes, rfl⟩ := ih (fun n hn => hvalue n (Nat.lt_succ_of_lt hn)) h
        exact ⟨e :: es, .more hderived (consume_eq_some.mp hr' ▸ blanks_skipWs r) hes, rfl⟩
      · exact absurd h nofun

theorem value_sound (fuel : Nat) : ValueSound fuel := by
  induction fuel using Nat.strongRecOn with
  | _ fuel ih =>
    intro s v t h
    cases fuel with
    | zero => exact absurd h Except.error_ne_ok
    | succ fuel =>
      have hlater : ∀ n < fuel, ValueSound n := fun n hn => ih n (Nat.lt_succ_of_lt hn)
      rcases hskip : skipWs s with _ | ⟨ch, r⟩
      · rw [parseValue, hskip] at h
        exact absurd h Except.error_ne_ok
      · rw [parseValue_cons hskip] at h
        split at h
        · next hch =>
          subst hch
          split at h
          · next r' hr' =>
            obtain ⟨rfl, rfl⟩ := Prod.mk.inj (Except.ok.inj h)
            exact .emptyObject (consume_eq_some.mp hr' ▸ blanks_skipWs r)
          · rw [parseMembers_skipWs] at h
            obtain ⟨es, hes, rfl⟩ := members_sound hlater h
            exact .object hes
        split at h
        · next hch =>
          subst hch
          split at h
          · next r' hr' =>
            obtain ⟨rfl, rfl⟩ := Prod.mk.inj (Except.ok.inj h)
            exact .emptyArray (consume_eq_some.mp hr' ▸ blanks_skipWs r)
          · rw [parseElements_skipWs] at h
            obtain ⟨vs, hvs, rfl⟩ := elements_sound hlater h
            exact .array hvs
        split at h
        · next hch =>
          subst hch
          obtain ⟨⟨out, t'⟩, hr, heq⟩ := Except.map_eq_ok.mp h
          obtain ⟨rfl, rfl⟩ := Prod.mk.inj heq
          exact .string (chars_sound hr)
        split at h
        · obtain ⟨rfl, htext⟩ := expect_sound h
          exact htext ▸ .true
        split at h
        · obtain ⟨rfl, htext⟩ := expect_sound h
          exact htext ▸ .false
        split at h
        · obtain ⟨rfl, htext⟩ := expect_sound h
          exact htext ▸ .null
        obtain ⟨⟨d, t'⟩, hr, heq⟩ := Except.map_eq_ok.mp h
        obtain ⟨rfl, rfl⟩ := Prod.mk.inj heq
        obtain ⟨n, hscanned, hd, htext⟩ := number_sound hr
        exact htext ▸ .number hscanned hd

/-! ## Whole texts -/

theorem Blanks.mono (h : ∀ b, g.blank b → g'.blank b) (hs : Blanks g s t) : Blanks g' s t := by
  induction hs with
  | nil => exact .nil
  | cons hb _ ih => exact .cons (h _ hb) ih

theorem parseJson_eq (s : Bytes) : parseJson s = parseValue (2 * s.length + 1) (skipWs s) >>= fun r =>
    if skipWs r.2 = [] then .ok r.1 else .error (parseError "trailing characters") := rfl

theorem text_parses (hg : g.Read) (h : IsText g s v) : Reads g (IsText g.pairsOnly s v) (parseJson s) v := by
  obtain ⟨s', t, hs, hv, ht⟩ := h
  have hparses := value_parses hg hv
  obtain ⟨b, r, rfl, hspace, -⟩ := hparses.head
  have hskip := skipWs_of_blanks_cons hg hs hspace
  have hlen := hs.length_le
  have hends : EndsRun isNumeral t := ht.endsNumeral hg fun _ hb => absurd hb nofun
  rw [parseJson_eq]
  refine (hparses.parses _ (skipWs s) (by rw [skipWs_skipWs, hskip]) (by omega) hends).bind fun hderived => ?_
  dsimp only
  rw [skipWs_of_blanks hg ht fun _ hb => absurd hb nofun, if_pos rfl]
  exact .inl ⟨⟨_, t, hs.pairsOnly, hderived, ht.pairsOnly⟩, rfl⟩

theorem relaxed_read : relaxed.Read where
  blank _ hb := hb
  number _ hn := hn
  raw := by
    rintro _ ⟨b, rfl, hquote, hescape⟩ c hc
    obtain rfl := List.mem_singleton.mp hc
    exact ⟨hquote, hescape⟩

/-- The parser reads the texts of its own lexicon, each as what it stands for. -/
theorem parseJson_eq_ok {v : Value} : parseJson s = .ok v ↔ IsText relaxed s v := by
  refine ⟨fun h => ?_, fun h => ?_⟩
  · rw [parseJson_eq] at h
    obtain ⟨⟨w, t⟩, hw, h⟩ := Except.bind_eq_ok.mp h
    obtain ⟨hempty, h⟩ := (ite_eq_iff.mp h).resolve_right fun hne => absurd hne.2 nofun
    obtain rfl := Except.ok.inj h
    have hderived := value_sound _ _ _ _ hw
    rw [skipWs_skipWs] at hderived
    exact ⟨skipWs s, t, blanks_skipWs s, hderived, hempty ▸ blanks_skipWs t⟩
  · exact ((text_parses relaxed_read h).resolve_right fun hu => hu.1).2

/-! ## JSON texts -/

theorem utf8EncodeChar_plain {c : Char} (hquote : c ≠ '"') (hescape : c ≠ '\\') :
    ∀ b ∈ String.utf8EncodeChar c, b ≠ ascii '"' ∧ b ≠ ascii '\\' := by
  have hofNat : ∀ {n k : Nat}, n < 256 → n ≠ k → k < 256 → UInt8.ofNat n ≠ UInt8.ofNat k := by
    intro n k hn hne hk heq
    have hmod : n % 256 = k % 256 := congrArg UInt8.toNat heq
    omega
  have hne : ∀ n, n < 256 → n ≠ 34 → n ≠ 92 → UInt8.ofNat n ≠ ascii '"' ∧ UInt8.ofNat n ≠ ascii '\\' :=
    fun n hn h₁ h₂ => ⟨hofNat hn h₁ (by decide), hofNat hn h₂ (by decide)⟩
  have hcode : ∀ d : Char, c ≠ d → c.val.toNat ≠ d.val.toNat := fun d hcd heq =>
    hcd (Char.ext (UInt32.toNat_inj.mp heq))
  have h₁ : c.val.toNat ≠ 34 := hcode '"' hquote
  have h₂ : c.val.toNat ≠ 92 := hcode '\\' hescape
  intro b hb
  unfold String.utf8EncodeChar at hb
  dsimp only at hb
  split at hb
  · obtain rfl := List.mem_singleton.mp hb
    exact hne _ (by omega) h₁ h₂
  split at hb
  · simp only [List.mem_cons, List.not_mem_nil, or_false] at hb
    rcases hb with rfl | rfl <;> exact hne _ (by omega) (by omega) (by omega)
  split at hb
  · simp only [List.mem_cons, List.not_mem_nil, or_false] at hb
    rcases hb with rfl | rfl | rfl <;> exact hne _ (by omega) (by omega) (by omega)
  · simp only [List.mem_cons, List.not_mem_nil, or_false] at hb
    rcases hb with rfl | rfl | rfl | rfl <;> exact hne _ (by omega) (by omega) (by omega)

theorem rfc_read : rfc.Read where
  blank := by
    rintro b (rfl | rfl | rfl | rfl) <;> rfl
  number _ hn := hn.scanned
  raw := by
    rintro _ ⟨c, -, hquote, hescape, rfl⟩
    exact utf8EncodeChar_plain hquote hescape

/-- One JSON text whose numbers are in range. -/
def JsonText (s : Bytes) : Prop := ∃ v, IsText rfc s v

/-- No JSON text, but one once the other white space, the other numerals and the other string bytes of `relaxed` are
let in and unpaired escapes of high surrogates kept out. -/
def LooseText (s : Bytes) : Prop := ¬ JsonText s ∧ ∃ v, IsText relaxed s v

/-- A JSON text, but none once the escapes of high surrogates must be paired. -/
def UnpairedText (s : Bytes) : Prop := JsonText s ∧ ¬ ∃ v, IsText rfc.pairsOnly s v

theorem accepts_of_paired (h : IsText rfc.pairsOnly s v) : parseJson s = .ok v :=
  have hg : rfc.pairsOnly.Read := ⟨rfc_read.blank, rfc_read.number, rfc_read.raw⟩
  ((text_parses hg h).resolve_right fun hu => hu.1).2

/-- The parser accepts a JSON text exactly when its escapes of high surrogates are paired. -/
theorem accepts_json_iff (h : JsonText s) : (∃ v, parseJson s = .ok v) ↔ ∃ v, IsText rfc.pairsOnly s v := by
  obtain ⟨v, hv⟩ := h
  refine ⟨fun ⟨w, hw⟩ => ?_, fun ⟨w, hw⟩ => ⟨w, accepts_of_paired hw⟩⟩
  rcases text_parses rfc_read hv with ⟨hpaired, -⟩ | ⟨-, e, he⟩
  · exact ⟨v, hpaired⟩
  · exact absurd (he.symm.trans hw) nofun

end Pineapple.Json
