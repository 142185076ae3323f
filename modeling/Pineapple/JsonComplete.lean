import Pineapple.JsonParser

/-! # What the grammar derives, the JSON parser reads

With the lexicon that the parser takes there is nothing else to a derivation. With one that has unpaired escapes of
surrogates, these are what reading fails at. -/

namespace Pineapple.Json
variable {α β : Type} {g : Lexicon}

/-- The result is `a`, or the text has an unpaired escape and reading it fails. -/
def Reads (g : Lexicon) (derived : Prop) (r : Except PineError α) (a : α) : Prop :=
  (derived ∧ r = .ok a) ∨ (g.unpaired ∧ ∃ e, r = .error e)

theorem Reads.map {P Q : Prop} {r : Except PineError α} {a : α} (h : Reads g P r a) (f : α → β) (hPQ : P → Q) :
    Reads g Q (f <$> r) (f a) := by
  rcases h with ⟨hP, rfl⟩ | ⟨hu, e, rfl⟩
  · exact .inl ⟨hPQ hP, rfl⟩
  · exact .inr ⟨hu, e, rfl⟩

theorem Reads.bind {P Q : Prop} {r : Except PineError α} {a : α} {f : α → Except PineError β} {b : β}
    (h : Reads g P r a) (hf : P → Reads g Q (f a) b) : Reads g Q (r >>= f) b := by
  rcases h with ⟨hP, rfl⟩ | ⟨hu, e, rfl⟩
  · exact hf hP
  · exact .inr ⟨hu, e, rfl⟩

theorem Reads.imp {P Q : Prop} {r : Except PineError α} {a : α} (h : Reads g P r a) (hPQ : P → Q) : Reads g Q r a :=
  Or.imp_left (And.imp_left hPQ) h

theorem parseChars_plain {p : Bytes} (hp : ∀ b ∈ p, b ≠ ascii '"' ∧ b ≠ ascii '\\') (s : Bytes) :
    parseChars (p ++ s) = emit p <$> parseChars s := by
  induction p with
  | nil =>
    rw [List.nil_append]
    cases parseChars s <;> rfl
  | cons b p ih =>
    obtain ⟨hb, hp⟩ := List.forall_mem_cons.mp hp
    rw [List.cons_append, parseChars_raw hb.1 hb.2, ih hp]
    cases parseChars s <;> rfl

theorem Blanks.pairsOnly {s t : Bytes} (h : Blanks g s t) : Blanks g.pairsOnly s t := by
  induction h with
  | nil => exact .nil
  | cons hb _ ih => exact .cons hb ih

theorem chars_parse (hg : g.Read) {s out t : Bytes} (h : Chars g s out t) :
    Reads g (Chars g.pairsOnly s out t) (parseChars s) (out, t) := by
  induction h with
  | @close t =>
    refine .inl ⟨.close, ?_⟩
    rw [parseChars.eq_def]
    exact if_pos rfl
  | raw hp _ ih =>
    rw [parseChars_plain (hg.raw _ hp)]
    exact ih.map (emit _) (.raw hp)
  | escape hesc _ ih =>
    rw [parseChars_escape hesc]
    exact ih.map (emit _) (.escape hesc)
  | unicode hhex hhigh _ ih =>
    rw [parseChars_unicode hhex hhigh]
    exact ih.map (emit _) (.unicode hhex hhigh)
  | pair hhex hhigh hhex' hlow _ ih =>
    rw [parseChars_pair hhex hhigh hhex' hlow]
    exact ih.map (emit _) (.pair hhex hhigh hhex' hlow)
  | unpaired hu hhex hhigh hlow _ _ => exact .inr ⟨hu, parseChars_unpaired hhex hhigh hlow⟩

theorem string_parse (hg : g.Read) {s out t : Bytes} (h : Chars g s out t) :
    Reads g (Chars g.pairsOnly s out t) (parseString (ascii '"' :: s)) (out, t) := by
  rw [parseString, consume_eq_some.mpr rfl]
  exact chars_parse hg h

/-! ### First bytes -/

theorem isSpace_iff {b : UInt8} : isSpace b = true ↔ b = 0x20 ∨ 9 ≤ b.toNat ∧ b.toNat ≤ 13 := by
  unfold isSpace
  rw [Bool.or_eq_true, Bool.and_eq_true, decide_eq_true_iff, decide_eq_true_iff, decide_eq_true_iff,
    UInt8.le_iff_toNat_le, UInt8.le_iff_toNat_le]
  rfl

theorem isDigit_iff {b : UInt8} : isDigit b = true ↔ 48 ≤ b.toNat ∧ b.toNat ≤ 57 := by
  unfold isDigit
  rw [Bool.and_eq_true, decide_eq_true_iff, decide_eq_true_iff]

theorem not_isSpace_of_isNumeral {b : UInt8} (h : isNumeral b = true) : isSpace b = false := by
  refine Bool.eq_false_of_not_eq_true fun hs => ?_
  have hcases : isDigit b = true ∨ b = ascii '.' ∨ isMarker b = true ∨ isSign b = true := by
    simpa [isNumeral, or_assoc] using h
  rcases hcases with hd | rfl | hm | hs'
  · have hd := isDigit_iff.mp hd
    rcases isSpace_iff.mp hs with rfl | hs
    · exact absurd hd (by decide)
    · omega
  · exact absurd hs (by decide)
  · rcases isMarker_cases hm with rfl | rfl <;> exact absurd hs (by decide)
  · rcases isSign_cases hs' with rfl | rfl <;> exact absurd hs (by decide)

/-- A byte that a numeral begins with. -/
def StartsNumeral (b : UInt8) : Prop := isDigit b = true ∨ b = ascii '-' ∨ b = ascii '.'

theorem StartsNumeral.not_isSpace {b : UInt8} (h : StartsNumeral b) : isSpace b = false := by
  rcases h with h | rfl | rfl
  · exact not_isSpace_of_isNumeral (by simp [isNumeral, h])
  · rfl
  · rfl

theorem StartsNumeral.ne {b c : UInt8} (h : StartsNumeral b) (hc : ¬ StartsNumeral c) : b ≠ c := by
  rintro rfl
  exact hc h

instance (b : UInt8) : Decidable (StartsNumeral b) := inferInstanceAs (Decidable (_ ∨ _))

theorem numeral_head {n : Numeral} {d : Binary64} (hn : n.Scanned) (hd : n.value = some d) :
    ∃ b s, n.text = b :: s ∧ StartsNumeral b := by
  obtain ⟨minus, int, frac, exp⟩ := n
  cases minus with
  | true => exact ⟨_, _, rfl, .inr (.inl rfl)⟩
  | false =>
    cases int with
    | cons b int => exact ⟨b, _, rfl, .inl (List.all_eq_true.mp hn.int b List.mem_cons_self)⟩
    | nil =>
      cases frac with
      | some digits => exact ⟨_, _, rfl, .inr (.inr rfl)⟩
      | none => exact absurd hd nofun

theorem value_head (hg : g.Read) {s t : Bytes} {v : Value} (h : IsValue g s v t) :
    ∃ b s', s = b :: s' ∧ isSpace b = false ∧ b ≠ ascii ']' := by
  cases h with
  | @number n d t hn hd =>
    obtain ⟨b, s, htext, hb⟩ := numeral_head (hg.number n hn) hd
    exact ⟨b, s ++ t, by rw [htext]; rfl, hb.not_isSpace, hb.ne (by decide)⟩
  | _ => exact ⟨_, _, rfl, by decide, by decide⟩

theorem skipWs_of_blanks_cons (hg : g.Read) {s t : Bytes} {b : UInt8} (h : Blanks g s (b :: t))
    (hb : isSpace b = false) : skipWs s = b :: t := skipWs_of_blanks hg h (endsRun_cons.mpr hb)

theorem skipWs_of_blanks_value (hg : g.Read) {s s' t : Bytes} {v : Value} (h : Blanks g s s')
    (hv : IsValue g s' v t) : skipWs s = s' := by
  obtain ⟨b, s', rfl, hb, -⟩ := value_head hg hv
  exact skipWs_of_blanks_cons hg h hb

/-- What comes after a value does not continue a numeral. -/
theorem Blanks.endsNumeral (hg : g.Read) {t t' : Bytes} (h : Blanks g t t') (ht' : EndsRun isNumeral t') :
    EndsRun isNumeral t := by
  cases h with
  | nil => exact ht'
  | cons hb _ =>
    refine endsRun_cons.mpr (Bool.eq_false_of_not_eq_true fun hnum => ?_)
    exact absurd ((hg.blank _ hb).symm.trans (not_isSpace_of_isNumeral hnum)) Bool.noConfusion

/-! ### Values -/

theorem parseValue_cons {fuel : Nat} {s₀ s : Bytes} {ch : UInt8} (h : skipWs s₀ = ch :: s) :
    parseValue (fuel + 1) s₀ =
      if ch = ascii '{' then
        match consume (ascii '}') (skipWs s) with
        | some s => .ok (.object [], s)
        | none => parseMembers fuel [] (skipWs s)
      else if ch = ascii '[' then
        match consume (ascii ']') (skipWs s) with
        | some s => .ok (.array [], s)
        | none => parseElements fuel [] (skipWs s)
      else if ch = ascii '"' then (fun (out, s) => (.string out, s)) <$> parseChars s
      else if ch = ascii 't' then expect "true" (.bool true) (ch :: s)
      else if ch = ascii 'f' then expect "false" (.bool false) (ch :: s)
      else if ch = ascii 'n' then expect "null" .null (ch :: s)
      else (fun (d, s) => (.number d, s)) <$> parseNumber (ch :: s) := by
  rw [parseValue, h] <;> rfl

theorem parseElements_succ (fuel : Nat) (array : List Value) (s : Bytes) : parseElements (fuel + 1) array s =
    parseValue fuel (skipWs s) >>= fun (v, s) =>
      match consume (ascii ']') (skipWs s) with
      | some s => .ok (.array (array ++ [v]), s)
      | none =>
        match consume (ascii ',') (skipWs s) with
        | some s => parseElements fuel (array ++ [v]) s
        | none => .error (parseError "expected ','") := by
  rw [parseElements]
  rfl

theorem parseMembers_succ (fuel : Nat) (object : List (Bytes × Value)) (s : Bytes) :
    parseMembers (fuel + 1) object s = parseMember (parseValue fuel) s >>= fun (e, s) =>
      match consume (ascii '}') (skipWs s) with
      | some s => .ok (.object (emplace e.1 e.2 object), s)
      | none =>
        match consume (ascii ',') (skipWs s) with
        | some s => parseMembers fuel (emplace e.1 e.2 object) s
        | none => .error (parseError "expected ','") := by
  rw [parseMembers]
  rfl

theorem parseMember_eq (value : Bytes → Except PineError (Value × Bytes)) (s : Bytes) : parseMember value s =
    parseString (skipWs s) >>= fun k =>
      match consume (ascii ':') (skipWs k.2) with
      | none => .error (parseError "expected ':'")
      | some s => value (skipWs s) >>= fun v => .ok ((k.1, v.1), v.2) := rfl

theorem skipWs_skipWs (s : Bytes) : skipWs (skipWs s) = skipWs s := skipWs_ends (endsRun_dropWhile isSpace s)

theorem parseElements_skipWs (fuel : Nat) (array : List Value) (s : Bytes) :
    parseElements fuel array (skipWs s) = parseElements fuel array s := by
  cases fuel with
  | zero => rfl
  | succ fuel => rw [parseElements_succ, parseElements_succ, skipWs_skipWs]

theorem parseMembers_skipWs (fuel : Nat) (object : List (Bytes × Value)) (s : Bytes) :
    parseMembers fuel object (skipWs s) = parseMembers fuel object s := by
  cases fuel with
  | zero => rfl
  | succ fuel => rw [parseMembers_succ, parseMembers_succ, parseMember_eq, parseMember_eq, skipWs_skipWs]

theorem expect_token (text : String) (v : Value) (t : Bytes) : expect text v (token text ++ t) = .ok (v, t) := by
  unfold expect
  rw [if_pos (List.prefix_append ..), List.drop_left]

theorem parseNumber_text {n : Numeral} {d : Binary64} {t : Bytes} (hn : n.Scanned) (hd : n.value = some d)
    (ht : EndsRun isNumeral t) : parseNumber (n.text ++ t) = .ok (d, t) := by
  unfold parseNumber
  rw [scan_text hn ht]
  dsimp only
  rw [hd]

structure ValueParses (g : Lexicon) (s : Bytes) (v : Value) (t : Bytes) : Prop where
  length_lt : t.length < s.length
  head : ∃ b s', s = b :: s' ∧ isSpace b = false ∧ b ≠ ascii ']'
  parses : ∀ fuel s₀, skipWs s₀ = s → 2 * s.length < fuel → EndsRun isNumeral t →
    Reads g (IsValue g.pairsOnly s v t) (parseValue fuel s₀) (v, t)

structure ElementsParse (g : Lexicon) (s : Bytes) (xs : List Value) (t : Bytes) : Prop where
  length_lt : t.length < s.length
  head : ∃ b s', skipWs s = b :: s' ∧ b ≠ ascii ']'
  parses : ∀ fuel array, 2 * s.length + 1 < fuel →
    Reads g (IsElements g.pairsOnly s xs t) (parseElements fuel array s) (.array (array ++ xs), t)

structure MemberParses (g : Lexicon) (s : Bytes) (e : Bytes × Value) (t : Bytes) : Prop where
  length_lt : t.length < s.length
  head : ∃ s', skipWs s = ascii '"' :: s'
  parses : ∀ fuel, 2 * s.length < fuel → EndsRun isNumeral t →
    Reads g (IsMember g.pairsOnly s e t) (parseMember (parseValue fuel) s) (e, t)

structure MembersParse (g : Lexicon) (s : Bytes) (es : List (Bytes × Value)) (t : Bytes) : Prop where
  length_lt : t.length < s.length
  head : ∃ s', skipWs s = ascii '"' :: s'
  parses : ∀ fuel object, 2 * s.length + 1 < fuel →
    Reads g (IsMembers g.pairsOnly s es t) (parseMembers fuel object s) (.object (emplaceAll object es), t)

variable {s s' t t' t'' : Bytes} {v : Value} {vs : List Value} {e : Bytes × Value} {es : List (Bytes × Value)}

theorem elements_last (hg : g.Read) (hs : Blanks g s s') (hv : ValueParses g s' v t)
    (ht : Blanks g t (ascii ']' :: t')) : ElementsParse g s [v] t' := by
  obtain ⟨b, s'', heq, hspace, hb⟩ := hv.head
  have hskip : skipWs s = s' := heq ▸ skipWs_of_blanks_cons hg (heq ▸ hs) hspace
  have hlen := hs.length_le
  have hlt := hv.length_lt
  have hlen' := ht.length_le
  rw [List.length_cons] at hlen'
  refine ⟨by omega, ⟨b, s'', by rw [hskip, heq], hb⟩, fun fuel array hfuel => ?_⟩
  obtain ⟨fuel, rfl⟩ : ∃ n, fuel = n + 1 := ⟨fuel - 1, by omega⟩
  rw [parseElements_succ]
  have hends : EndsRun isNumeral t := ht.endsNumeral hg (endsRun_cons.mpr rfl)
  refine (hv.parses fuel (skipWs s) (by rw [skipWs_skipWs, hskip]) (by omega) hends).bind fun hderived => ?_
  dsimp only
  rw [skipWs_of_blanks_cons hg ht rfl, consume_eq_some.mpr rfl]
  exact .inl ⟨.last hs.pairsOnly hderived ht.pairsOnly, rfl⟩

theorem elements_more (hg : g.Read) (hs : Blanks g s s') (hv : ValueParses g s' v t)
    (ht : Blanks g t (ascii ',' :: t')) (hvs : ElementsParse g t' vs t'') : ElementsParse g s (v :: vs) t'' := by
  obtain ⟨b, s'', heq, hspace, hb⟩ := hv.head
  have hskip : skipWs s = s' := heq ▸ skipWs_of_blanks_cons hg (heq ▸ hs) hspace
  have hlen := hs.length_le
  have hlt := hv.length_lt
  have hlen' := ht.length_le
  have hlt' := hvs.length_lt
  rw [List.length_cons] at hlen'
  refine ⟨by omega, ⟨b, s'', by rw [hskip, heq], hb⟩, fun fuel array hfuel => ?_⟩
  obtain ⟨fuel, rfl⟩ : ∃ n, fuel = n + 1 := ⟨fuel - 1, by omega⟩
  rw [parseElements_succ]
  have hends : EndsRun isNumeral t := ht.endsNumeral hg (endsRun_cons.mpr rfl)
  refine (hv.parses fuel (skipWs s) (by rw [skipWs_skipWs, hskip]) (by omega) hends).bind fun hderived => ?_
  dsimp only
  rw [skipWs_of_blanks_cons hg ht rfl, consume_none (by decide), consume_eq_some.mpr rfl]
  have hrest := hvs.parses fuel (array ++ [v]) (by omega)
  rw [List.append_assoc] at hrest
  exact hrest.imp (.more hs.pairsOnly hderived ht.pairsOnly)

theorem member_parses (hg : g.Read) {k key r r' : Bytes} (hs : Blanks g s (ascii '"' :: k)) (hkey : Chars g k key r)
    (hr : Blanks g r (ascii ':' :: r')) (hr' : Blanks g r' s') (hv : ValueParses g s' v t) :
    MemberParses g s (key, v) t := by
  obtain ⟨b, s'', heq, hspace, -⟩ := hv.head
  have hskip : skipWs r' = s' := heq ▸ skipWs_of_blanks_cons hg (heq ▸ hr') hspace
  have hlen := hs.length_le
  have hlen' := hr.length_le
  have hlen'' := hr'.length_le
  have hlt := hkey.length_lt
  have hlt' := hv.length_lt
  rw [List.length_cons] at hlen hlen'
  refine ⟨by omega, ⟨k, skipWs_of_blanks_cons hg hs rfl⟩, fun fuel hfuel ht => ?_⟩
  rw [parseMember_eq, skipWs_of_blanks_cons hg hs rfl]
  refine (string_parse hg hkey).bind fun hkeyDerived => ?_
  dsimp only
  rw [skipWs_of_blanks_cons hg hr rfl, consume_eq_some.mpr rfl]
  dsimp only
  refine (hv.parses fuel (skipWs r') (by rw [skipWs_skipWs, hskip]) (by omega) ht).bind fun hderived => ?_
  exact .inl ⟨.mk hs.pairsOnly hkeyDerived hr.pairsOnly hr'.pairsOnly hderived, rfl⟩

theorem members_last (hg : g.Read) (he : MemberParses g s e t) (ht : Blanks g t (ascii '}' :: t')) :
    MembersParse g s [e] t' := by
  have hlt := he.length_lt
  have hlen := ht.length_le
  rw [List.length_cons] at hlen
  refine ⟨by omega, he.head, fun fuel object hfuel => ?_⟩
  obtain ⟨fuel, rfl⟩ : ∃ n, fuel = n + 1 := ⟨fuel - 1, by omega⟩
  rw [parseMembers_succ]
  have hends : EndsRun isNumeral t := ht.endsNumeral hg (endsRun_cons.mpr rfl)
  refine (he.parses fuel (by omega) hends).bind fun hderived => ?_
  dsimp only
  rw [skipWs_of_blanks_cons hg ht rfl, consume_eq_some.mpr rfl]
  exact .inl ⟨.last hderived ht.pairsOnly, rfl⟩

theorem members_more (hg : g.Read) (he : MemberParses g s e t) (ht : Blanks g t (ascii ',' :: t'))
    (hes : MembersParse g t' es t'') : MembersParse g s (e :: es) t'' := by
  have hlt := he.length_lt
  have hlt' := hes.length_lt
  have hlen := ht.length_le
  rw [List.length_cons] at hlen
  refine ⟨by omega, he.head, fun fuel object hfuel => ?_⟩
  obtain ⟨fuel, rfl⟩ : ∃ n, fuel = n + 1 := ⟨fuel - 1, by omega⟩
  rw [parseMembers_succ]
  have hends : EndsRun isNumeral t := ht.endsNumeral hg (endsRun_cons.mpr rfl)
  refine (he.parses fuel (by omega) hends).bind fun hderived => ?_
  dsimp only
  rw [skipWs_of_blanks_cons hg ht rfl, consume_none (by decide), consume_eq_some.mpr rfl]
  exact (hes.parses fuel (emplace e.1 e.2 object) (by omega)).imp (.more hderived ht.pairsOnly)

theorem literal_parses {word : String} {b : UInt8} {rest : Bytes} (hword : token word = b :: rest)
    (hb : isSpace b = false ∧ b ≠ ascii ']')
    (hdispatch : ∀ fuel s₀ s, skipWs s₀ = b :: s → parseValue (fuel + 1) s₀ = expect word v (b :: s))
    (hv : IsValue g.pairsOnly (token word ++ t) v t) : ValueParses g (token word ++ t) v t := by
  refine ⟨?_, ⟨b, rest ++ t, by rw [hword]; rfl, hb⟩, fun fuel s₀ hs₀ hfuel _ => .inl ⟨hv, ?_⟩⟩
  · rw [hword, List.length_append, List.length_cons]
    omega
  · obtain ⟨fuel, rfl⟩ : ∃ n, fuel = n + 1 := ⟨fuel - 1, by omega⟩
    rw [hword] at hs₀
    rw [hdispatch fuel s₀ _ hs₀]
    show expect word v ((b :: rest) ++ t) = _
    rw [← hword, expect_token]

theorem number_parses (hg : g.Read) {n : Numeral} {d : Binary64} (hn : g.number n) (hd : n.value = some d) :
    ValueParses g (n.text ++ t) (.number d) t := by
  obtain ⟨b, s, htext, hb⟩ := numeral_head (hg.number n hn) hd
  have hcons : n.text ++ t = b :: (s ++ t) := by rw [htext]; rfl
  refine ⟨?_, ⟨b, s ++ t, hcons, hb.not_isSpace, hb.ne (by decide)⟩,
    fun fuel s₀ hs₀ hfuel ht => .inl ⟨.number hn hd, ?_⟩⟩
  · rw [hcons, List.length_cons, List.length_append]
    omega
  · obtain ⟨fuel, rfl⟩ : ∃ n, fuel = n + 1 := ⟨fuel - 1, by omega⟩
    rw [hcons] at hs₀
    rw [parseValue_cons hs₀, if_neg (hb.ne (by decide)), if_neg (hb.ne (by decide)), if_neg (hb.ne (by decide)),
      if_neg (hb.ne (by decide)), if_neg (hb.ne (by decide)), if_neg (hb.ne (by decide)), ← hcons,
      parseNumber_text (hg.number n hn) hd ht]
    rfl

theorem string_parses (hg : g.Read) {out : Bytes} (h : Chars g s out t) :
    ValueParses g (ascii '"' :: s) (.string out) t := by
  refine ⟨Nat.lt_succ_of_lt h.length_lt, ⟨_, s, rfl, rfl, by decide⟩, fun fuel s₀ hs₀ hfuel _ => ?_⟩
  obtain ⟨fuel, rfl⟩ : ∃ n, fuel = n + 1 := ⟨fuel - 1, by omega⟩
  rw [parseValue_cons hs₀, if_neg (by decide), if_neg (by decide), if_pos rfl]
  exact (chars_parse hg h).map _ .string

theorem emptyArray_parses (hg : g.Read) (h : Blanks g s (ascii ']' :: t)) :
    ValueParses g (ascii '[' :: s) (.array []) t := by
  have hlen := h.length_le
  rw [List.length_cons] at hlen
  refine ⟨Nat.lt_succ_of_lt hlen, ⟨_, s, rfl, rfl, by decide⟩, fun fuel s₀ hs₀ hfuel _ => .inl ⟨.emptyArray h.pairsOnly, ?_⟩⟩
  obtain ⟨fuel, rfl⟩ : ∃ n, fuel = n + 1 := ⟨fuel - 1, by omega⟩
  rw [parseValue_cons hs₀, if_neg (by decide), if_pos rfl, skipWs_of_blanks_cons hg h rfl, consume_eq_some.mpr rfl]

theorem array_parses (h : ElementsParse g s vs t) : ValueParses g (ascii '[' :: s) (.array vs) t := by
  obtain ⟨b, s', hskip, hb⟩ := h.head
  refine ⟨Nat.lt_succ_of_lt h.length_lt, ⟨_, s, rfl, rfl, by decide⟩, fun fuel s₀ hs₀ hfuel _ => ?_⟩
  rw [List.length_cons] at hfuel
  obtain ⟨fuel, rfl⟩ : ∃ n, fuel = n + 1 := ⟨fuel - 1, by omega⟩
  rw [parseValue_cons hs₀, if_neg (by decide), if_pos rfl, hskip, consume_none hb]
  dsimp only
  rw [← hskip, parseElements_skipWs]
  exact (h.parses fuel [] (by omega)).imp .array

theorem emptyObject_parses (hg : g.Read) (h : Blanks g s (ascii '}' :: t)) :
    ValueParses g (ascii '{' :: s) (.object []) t := by
  have hlen := h.length_le
  rw [List.length_cons] at hlen
  refine ⟨Nat.lt_succ_of_lt hlen, ⟨_, s, rfl, rfl, by decide⟩, fun fuel s₀ hs₀ hfuel _ => .inl ⟨.emptyObject h.pairsOnly, ?_⟩⟩
  obtain ⟨fuel, rfl⟩ : ∃ n, fuel = n + 1 := ⟨fuel - 1, by omega⟩
  rw [parseValue_cons hs₀, if_pos rfl, skipWs_of_blanks_cons hg h rfl, consume_eq_some.mpr rfl]

theorem object_parses (h : MembersParse g s es t) : ValueParses g (ascii '{' :: s) (.object (emplaceAll [] es)) t := by
  obtain ⟨s', hskip⟩ := h.head
  refine ⟨Nat.lt_succ_of_lt h.length_lt, ⟨_, s, rfl, rfl, by decide⟩, fun fuel s₀ hs₀ hfuel _ => ?_⟩
  rw [List.length_cons] at hfuel
  obtain ⟨fuel, rfl⟩ : ∃ n, fuel = n + 1 := ⟨fuel - 1, by omega⟩
  rw [parseValue_cons hs₀, if_pos rfl, hskip, consume_none (by decide)]
  dsimp only
  rw [← hskip, parseMembers_skipWs]
  exact (h.parses fuel [] (by omega)).imp .object

/-- What the grammar derives is read, or has an unpaired escape. -/
theorem value_parses (hg : g.Read) (h : IsValue g s v t) : ValueParses g s v t := by
  refine @IsValue.rec g (fun s v t _ => ValueParses g s v t) (fun s vs t _ => ElementsParse g s vs t)
    (fun s es t _ => MembersParse g s es t) (fun s e t _ => MemberParses g s e t)
    ?null ?true ?false ?number ?string ?emptyArray ?array ?emptyObject ?object ?last ?more ?lastMember ?moreMembers
    ?member s v t h
  case null =>
    refine fun {t} => literal_parses (show token "null" = ascii 'n' :: token "ull" by decide) ⟨rfl, by decide⟩
      (fun fuel s₀ s hs => ?_) .null
    rw [parseValue_cons hs, if_neg (by decide), if_neg (by decide), if_neg (by decide), if_neg (by decide), if_neg (by decide), if_pos rfl]
  case true =>
    refine fun {t} => literal_parses (show token "true" = ascii 't' :: token "rue" by decide) ⟨rfl, by decide⟩
      (fun fuel s₀ s hs => ?_) .true
    rw [parseValue_cons hs, if_neg (by decide), if_neg (by decide), if_neg (by decide), if_pos rfl]
  case false =>
    refine fun {t} => literal_parses (show token "false" = ascii 'f' :: token "alse" by decide) ⟨rfl, by decide⟩
      (fun fuel s₀ s hs => ?_) .false
    rw [parseValue_cons hs, if_neg (by decide), if_neg (by decide), if_neg (by decide), if_neg (by decide), if_pos rfl]
  case number => exact fun hn hd => number_parses hg hn hd
  case string => exact fun h => string_parses hg h
  case emptyArray => exact fun h => emptyArray_parses hg h
  case array => exact fun _ h => array_parses h
  case emptyObject => exact fun h => emptyObject_parses hg h
  case object => exact fun _ h => object_parses h
  case last => exact fun hs _ ht hv => elements_last hg hs hv ht
  case more => exact fun hs _ ht _ hv hvs => elements_more hg hs hv ht hvs
  case lastMember => exact fun _ ht he => members_last hg he ht
  case moreMembers => exact fun _ ht _ he hes => members_more hg he ht hes
  case member => exact fun hs hkey hr hr' _ hv => member_parses hg hs hkey hr hr' hv

end Pineapple.Json
