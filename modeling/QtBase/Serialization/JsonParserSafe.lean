import QtBase.Serialization.JsonScan

/-! The parser is safe on every text: it ends, reads no byte outside of the text, opens no more
containers than the limit allows, and knows where it has failed. -/
namespace QtBase

open Option

namespace JsonParser

open Unicode JsonParser.Parser

variable {text : List UInt8} {p : Parser}

/-- An error is at a position of the text, with one exception: a string without an end is reported
one character behind the end of the text. -/
def FailsInside (text : List UInt8) (q : Parser) : Prop :=
  q.json ≤ text.length ∨ q.json = text.length + 1 ∧ q.lastError = .unterminatedString

/-- What a parsing function leaves behind. -/
def Returns (text : List UInt8) (p : Parser) : Bool × Parser → Prop
  | (true, q) => p.json ≤ q.json ∧ q.json ≤ text.length ∧ q.nestingLevel = p.nestingLevel
  | (false, q) => FailsInside text q

/-- A parsing function that also needs a container to append to, and keeps one. -/
def Appends (text : List UInt8) (p : Parser) (x : Exec (Bool × Parser)) : Prop :=
  ∃ r, x = .ok r ∧ Returns text p r ∧ (r.1 = true → r.2.container.isSome = true)

variable {q : Parser}

theorem appends_fail (h : q.json ≤ text.length) (error : ParseError) :
    Appends text p (.ok (q.fail error)) :=
  ⟨_, rfl, Or.inl h, fun hfalse => Bool.noConfusion hfalse⟩

theorem append_ok (h : p.container.isSome = true) (value : QCborValue) :
    ∃ c, p.append value = .ok { p with container := some c } := by
  obtain ⟨c, hc⟩ := isSome_iff_exists.mp h
  unfold Parser.append
  rw [hc]
  exact ⟨_, rfl⟩

/-! ## Tokens, literals and numbers -/

theorem nextToken_safe (hle : p.json ≤ text.length) : ∃ token json,
    p.nextToken text = .ok (token, { p with json }) ∧ p.json ≤ json ∧ json ≤ text.length ∧
      (token ≠ 0 → p.json < json) := by
  have hpast := past_le isSpace hle
  have hge := @le_past text isSpace p.json
  by_cases hlt : past text isSpace p.json < text.length
  · exact ⟨_, _, nextToken_ok hle hlt, by omega, by omega, fun _ => by omega⟩
  · exact ⟨_, _, nextToken_end hle (by omega), hle, Nat.le_refl _, fun h => absurd rfl h⟩

theorem matchLetters_safe (letters : List UInt8) {json : ℕ}
    (h : json + letters.length ≤ text.length) : ∃ matched json',
      matchLetters text letters json = .ok (matched, json') ∧ json ≤ json' ∧
        json' ≤ text.length := by
  induction letters generalizing json with
  | nil => exact ⟨true, json, rfl, Nat.le_refl _, h⟩
  | cons letter letters ih =>
    rw [List.length_cons] at h
    unfold matchLetters
    rw [deref_of_lt (by omega), ok_bind]
    by_cases heq : (text[json] == letter) = true
    · rw [if_pos heq]
      have ⟨matched, json', hm, hge, hle⟩ := @ih (json + 1) (by omega)
      exact ⟨matched, json', hm, by omega, hle⟩
    · rw [if_neg heq]
      exact ⟨false, json + 1, rfl, by omega, by omega⟩

theorem parseLiteral_safe (hle : p.json ≤ text.length) (hc : p.container.isSome = true)
    {needed : ℕ} {letters : List UInt8} (hneeded : letters.length ≤ needed) (value : QCborValue) :
    Appends text p (p.parseLiteral text needed letters value) := by
  unfold parseLiteral
  by_cases hshort : text.length - p.json < needed
  · rw [if_pos hshort]
    exact appends_fail hle _
  · rw [if_neg hshort]
    have ⟨matched, json, hm, hge, hjson⟩ :=
      @matchLetters_safe text letters p.json (by omega)
    rw [hm, ok_bind]
    cases matched with
    | false => exact appends_fail hjson _
    | true =>
      have ⟨c, happ⟩ := append_ok (p := { p with json }) hc value
      show Appends text p (do let p ← Parser.append { p with json } value; _)
      rw [happ, ok_bind]
      exact ⟨_, rfl, ⟨hge, hjson, rfl⟩, fun _ => rfl⟩

variable {json : ℕ}

theorem skipOne_safe (c : UInt8 → Bool) (hle : json ≤ text.length) : ∃ found json',
    skipOne text c json = .ok (found, json') ∧ json ≤ json' ∧ json' ≤ text.length := by
  unfold skipOne looksAt
  by_cases hlt : json < text.length
  · rw [if_pos hlt, deref_of_lt hlt, ok_bind, pure_eq_ok, ok_bind]
    refine ⟨_, _, rfl, ?_, ?_⟩
    · split <;> omega
    · split <;> omega
  · rw [if_neg hlt]
    exact ⟨_, _, rfl, Nat.le_refl _, hle⟩

theorem skipDigits_safe (hle : json ≤ text.length) : ∃ json',
    skipWhile text isAsciiDigit (text.length + 1) json = .ok json' ∧ json ≤ json' ∧
      json' ≤ text.length :=
  ⟨_, skipWhile_ok isAsciiDigit _ hle (by omega), le_past _ _, past_le _ hle⟩

theorem skipInt_safe (hle : json ≤ text.length) : ∃ json',
    skipInt text json = .ok json' ∧ json ≤ json' ∧ json' ≤ text.length := by
  have ⟨zero, json₁, h₁, hge₁, hle₁⟩ := skipOne_safe (· == 0x30) hle
  unfold skipInt
  rw [h₁, ok_bind]
  cases zero with
  | true => exact ⟨json₁, rfl, hge₁, hle₁⟩
  | false =>
    have ⟨json₂, h₂, hge₂, hle₂⟩ := skipDigits_safe hle₁
    exact ⟨json₂, h₂, by omega, hle₂⟩

theorem skipFrac_safe (hle : json ≤ text.length) : ∃ zeros json',
    skipFrac text json = .ok (zeros, json') ∧ json ≤ json' ∧ json' ≤ text.length := by
  have ⟨point, json₁, h₁, hge₁, hle₁⟩ := skipOne_safe (· == 0x2e) hle
  unfold skipFrac
  rw [h₁, ok_bind]
  cases point with
  | false => exact ⟨true, json, rfl, Nat.le_refl _, hle⟩
  | true =>
    have ⟨json₂, h₂, hge₂, hle₂⟩ := skipDigits_safe hle₁
    simp only [Bool.not_true, Bool.false_eq_true, if_false, h₂, ok_bind]
    exact ⟨_, json₂, rfl, by omega, hle₂⟩

theorem skipExp_safe (hle : json ≤ text.length) : ∃ e json',
    skipExp text json = .ok (e, json') ∧ json ≤ json' ∧ json' ≤ text.length := by
  have ⟨e, json₁, h₁, hge₁, hle₁⟩ := skipOne_safe (fun c => c == 0x65 || c == 0x45) hle
  unfold skipExp
  rw [h₁, ok_bind]
  cases e with
  | false => exact ⟨false, json₁, rfl, hge₁, hle₁⟩
  | true =>
    have ⟨sign, json₂, h₂, hge₂, hle₂⟩ := skipOne_safe (fun c => c == 0x2d || c == 0x2b) hle₁
    have ⟨json₃, h₃, hge₃, hle₃⟩ := skipDigits_safe hle₂
    simp only [Bool.not_true, Bool.false_eq_true, if_false, h₂, h₃, ok_bind]
    exact ⟨true, json₃, rfl, by omega, hle₃⟩

theorem parseNumber_safe (decimal : Decimal) (hle : p.json ≤ text.length)
    (hc : p.container.isSome = true) : Appends text p (p.parseNumber text decimal) := by
  have ⟨minus, json₁, h₁, hge₁, hle₁⟩ := skipOne_safe (· == 0x2d) hle
  have ⟨json₂, h₂, hge₂, hle₂⟩ := skipInt_safe hle₁
  have ⟨zeros, json₃, h₃, hge₃, hle₃⟩ := skipFrac_safe hle₂
  have ⟨e, json₄, h₄, hge₄, hle₄⟩ := skipExp_safe hle₃
  unfold parseNumber
  simp only [h₁, h₂, h₃, h₄, ok_bind]
  by_cases hend : text.length ≤ json₄
  · rw [if_pos hend]
    exact appends_fail hle₄ _
  · rw [if_neg hend]
    cases numberValue decimal (zeros && !e) ((text.drop p.json).take (json₄ - p.json)) with
    | none => exact appends_fail hle₄ _
    | some value =>
      have ⟨c, happ⟩ := append_ok (p := { p with json := json₄ }) hc value
      simp only
      rw [happ, ok_bind]
      exact ⟨_, rfl, ⟨by show p.json ≤ json₄; omega, hle₄, rfl⟩, fun _ => rfl⟩

/-! ## Strings -/

theorem scanUtf8Char_safe (hlt : json < text.length) : ∃ ch json',
    scanUtf8Char text json = .ok (ch, json') ∧ json ≤ json' ∧ json' ≤ text.length ∧
      (ch.isSome = true → json < json') := by
  by_cases h : ∃ c rest, text.drop json = String.utf8EncodeChar c ++ rest
  · obtain ⟨c, rest, hc⟩ := h
    have hlen := length_of_drop (Nat.le_of_lt hlt) hc
    have hpos : 0 < (String.utf8EncodeChar c).length := by
      rw [String.length_utf8EncodeChar]
      exact Char.utf8Size_pos c
    exact ⟨_, _, scanUtf8Char_ok hc, by omega, by omega, fun _ => by omega⟩
  · have hnone : ∀ c rest, text.drop json ≠ String.utf8EncodeChar c ++ rest :=
      fun c rest hc => h ⟨c, rest, hc⟩
    exact ⟨none, json, scanUtf8Char_none hlt hnone, Nat.le_refl _, by omega, fun hn => Bool.noConfusion hn⟩

theorem addHexDigits_safe (n : ℕ) (ch : UInt32) {json : ℕ} (h : json + n ≤ text.length) :
    ∃ ch' json', addHexDigits text n ch json = .ok (ch', json') ∧ json ≤ json' ∧
      json' ≤ text.length := by
  induction n generalizing ch json with
  | zero => exact ⟨_, _, rfl, Nat.le_refl _, h⟩
  | succ n ih =>
    unfold addHexDigits
    rw [deref_of_lt (by omega), ok_bind]
    cases fromHex text[json] with
    | none => exact ⟨_, _, rfl, Nat.le_refl _, by omega⟩
    | some d =>
      have ⟨ch', json', hrest, hge, hle⟩ := @ih (ch <<< 4 ||| d) (json + 1) (by omega)
      exact ⟨ch', json', hrest, by omega, hle⟩

theorem scanEscapeSequence_safe (hlt : json < text.length) : ∃ ch json',
    scanEscapeSequence text json = .ok (ch, json') ∧ json < json' ∧ json' ≤ text.length := by
  unfold scanEscapeSequence
  by_cases hend : text.length ≤ json + 1
  · exact ⟨none, json + 1, if_pos hend, by omega, by omega⟩
  simp only
  rw [if_neg hend, deref_of_lt (by omega), ok_bind]
  by_cases hu : (text[json + 1] == 0x75) = true
  · rw [if_pos hu]
    by_cases hshort : text.length < json + 1 + 1 + 4
    · exact ⟨none, json + 1 + 1, if_pos hshort, by omega, by omega⟩
    · rw [if_neg hshort]
      have ⟨ch, json', hrest, hge, hle⟩ :=
        @addHexDigits_safe text 4 0 (json + 1 + 1) (by omega)
      exact ⟨ch, json', hrest, by omega, hle⟩
  · rw [if_neg hu]
    exact ⟨_, _, rfl, by omega, by omega⟩

theorem scanPlain_safe (fuel : ℕ) (isAscii : Bool) (hle : json ≤ text.length)
    (hfuel : text.length < fuel + json) : ∃ scan, scanPlain text fuel json isAscii = .ok scan ∧
      json ≤ scan.json ∧ scan.json ≤ text.length := by
  induction fuel generalizing json isAscii with
  | zero => omega
  | succ fuel ih =>
    unfold scanPlain
    by_cases hlt : json < text.length
    · rw [if_pos hlt, deref_of_lt hlt, ok_bind]
      by_cases hquote : (text[json] == Quote) = true
      · rw [if_pos hquote]
        exact ⟨_, rfl, Nat.le_refl _, hle⟩
      rw [if_neg hquote]
      by_cases hback : (text[json] == Backslash) = true
      · rw [if_pos hback]
        exact ⟨_, rfl, Nat.le_refl _, hle⟩
      rw [if_neg hback]
      have ⟨ch, json', hch, hge', hle', hprog⟩ := scanUtf8Char_safe hlt
      rw [hch, ok_bind]
      cases ch with
      | none => exact ⟨_, rfl, hge', hle'⟩
      | some ch =>
        have hprog := hprog rfl
        have ⟨scan, hscan, hge, hrest⟩ := ih (if ch > 0x7f then false else isAscii) hle' (by omega)
        exact ⟨scan, hscan, by omega, hrest⟩
    · rw [if_neg hlt]
      exact ⟨_, rfl, Nat.le_refl _, hle⟩

theorem scanEscaped_safe (fuel : ℕ) (ucs4 : List UInt16) (hle : json ≤ text.length)
    (hfuel : text.length < fuel + json) : ∃ error json' ucs4',
      scanEscaped text fuel json ucs4 = .ok (error, json', ucs4') ∧ json ≤ json' ∧
        json' ≤ text.length := by
  induction fuel generalizing json ucs4 with
  | zero => omega
  | succ fuel ih =>
    unfold scanEscaped
    by_cases hlt : json < text.length
    · rw [if_pos hlt, deref_of_lt hlt, ok_bind]
      by_cases hquote : (text[json] == Quote) = true
      · rw [if_pos hquote]
        exact ⟨_, _, _, rfl, Nat.le_refl _, hle⟩
      rw [if_neg hquote]
      by_cases hback : (text[json] == Backslash) = true
      · have ⟨ch, json', hch, hge', hle'⟩ := scanEscapeSequence_safe hlt
        rw [if_pos hback, hch, ok_bind]
        cases ch with
        | none => exact ⟨_, _, _, rfl, by omega, hle'⟩
        | some ch =>
          have ⟨error, json₂, ucs4', hrest, hge, hle₂⟩ :=
            ih (ucs4 ++ fromUcs4 ch) hle' (by omega)
          exact ⟨error, json₂, ucs4', hrest, by omega, hle₂⟩
      · have ⟨ch, json', hch, hge', hle', hprog⟩ := scanUtf8Char_safe hlt
        rw [if_neg hback, hch, ok_bind]
        cases ch with
        | none => exact ⟨_, _, _, rfl, hge', hle'⟩
        | some ch =>
          have hprog := hprog rfl
          have ⟨error, json₂, ucs4', hrest, hge, hle₂⟩ :=
            ih (ucs4 ++ fromUcs4 ch) hle' (by omega)
          exact ⟨error, json₂, ucs4', hrest, by omega, hle₂⟩
    · rw [if_neg hlt]
      exact ⟨_, _, _, rfl, Nat.le_refl _, hle⟩

theorem appends_unterminated (h : q.json ≤ text.length + 1) :
    Appends text p (.ok (q.fail .unterminatedString)) := by
  refine ⟨_, rfl, ?_, fun hfalse => Bool.noConfusion hfalse⟩
  show q.json ≤ text.length ∨ q.json = text.length + 1 ∧ _
  by_cases hle : q.json ≤ text.length
  · exact Or.inl hle
  · exact Or.inr ⟨by omega, rfl⟩

theorem parseEscaped_safe {start : ℕ} (hstart : start ≤ text.length) (hle : p.json ≤ start)
    (hc : q.container.isSome = true) (hn : q.nestingLevel = p.nestingLevel) :
    Appends text p (q.parseEscaped text start) := by
  have ⟨error, json, ucs4, hscan, hge, hjson⟩ :=
    scanEscaped_safe (text.length + 1) [] hstart (by omega)
  unfold parseEscaped
  rw [hscan, ok_bind]
  cases error with
  | some error => exact appends_fail hjson error
  | none =>
    simp only
    by_cases hend : text.length ≤ json + 1
    · rw [if_pos hend]
      exact appends_unterminated (by show json + 1 ≤ _; omega)
    · obtain ⟨c, hqc⟩ := isSome_iff_exists.mp hc
      rw [if_neg hend, hqc]
      exact ⟨_, rfl, ⟨by show p.json ≤ json + 1; omega, by show json + 1 ≤ _; omega, hn⟩,
        fun _ => rfl⟩

theorem parseString_safe (hle : p.json ≤ text.length) (hc : p.container.isSome = true) :
    Appends text p (p.parseString text) := by
  have ⟨scan, hscan, hge, hjson⟩ := scanPlain_safe (text.length + 1) true hle (by omega)
  unfold parseString
  simp only [hscan, ok_bind]
  by_cases hvalid : (!scan.valid) = true
  · rw [if_pos hvalid]
    exact appends_fail hjson _
  rw [if_neg hvalid]
  by_cases hend : text.length ≤ scan.json + 1
  · rw [if_pos hend]
    exact appends_unterminated (by show scan.json + 1 ≤ _; omega)
  rw [if_neg hend]
  by_cases hutf8 : (!scan.isUtf8) = true
  · rw [if_pos hutf8]
    exact parseEscaped_safe hle (Nat.le_refl _) hc rfl
  · obtain ⟨c, hpc⟩ := isSome_iff_exists.mp hc
    rw [if_neg hutf8, hpc]
    exact ⟨_, rfl, ⟨by show p.json ≤ scan.json + 1; omega, by show scan.json + 1 ≤ _; omega, rfl⟩,
      fun _ => rfl⟩

/-! ## Arrays, objects and values -/

/-- What `parseValue` does with at most `depth` more containers inside each other. -/
def ParsesValue (text : List UInt8) (depth : ℕ) (value : Parser → Exec (Bool × Parser)) : Prop :=
  ∀ p : Parser, p.json < text.length → p.container.isSome = true →
    p.nestingLevel ≤ nestingLimit → nestingLimit < p.nestingLevel + depth →
    Appends text p (value p)

variable {depth : ℕ} {value : Parser → Exec (Bool × Parser)}

theorem ensureContainer_isSome (p : Parser) : p.ensureContainer.container.isSome = true := rfl

/-- A parsing function that need not have a container, and returns behind `p`. -/
def Completes (text : List UInt8) (p : Parser) (x : Exec (Bool × Parser)) : Prop :=
  ∃ r, x = .ok r ∧ Returns text p r

theorem completes_fail (h : q.json ≤ text.length) (error : ParseError) :
    Completes text p (.ok (q.fail error)) := ⟨_, rfl, Or.inl h⟩

theorem Returns.trans {r : Bool × Parser} (h : Returns text q r) (hjson : p.json ≤ q.json)
    (hn : q.nestingLevel = p.nestingLevel) : Returns text p r := by
  obtain ⟨ok, s⟩ := r
  cases ok with
  | false => exact h
  | true => exact ⟨Nat.le_trans hjson h.1, h.2.1, h.2.2.trans hn⟩

theorem arrayLoop_safe (hvalue : ParsesValue text depth value) (fuel : ℕ) {p : Parser}
    (hle : p.json ≤ text.length) (hn : p.nestingLevel ≤ nestingLimit)
    (hdepth : nestingLimit < p.nestingLevel + depth) (hfuel : text.length < fuel + p.json) :
    Completes text p (arrayLoop text value fuel p) := by
  induction fuel generalizing p with
  | zero => omega
  | succ fuel ih =>
    unfold arrayLoop
    rw [eatSpace_ok hle, ok_bind]
    have hpast := past_le isSpace hle
    have hge := @le_past text isSpace p.json
    by_cases hlt : past text isSpace p.json < text.length
    · simp only [decide_eq_true hlt, Bool.not_true, Bool.false_eq_true, if_false]
      have ⟨r, hr, hret, hsome⟩ := hvalue (ensureContainer { p with json := past text isSpace p.json })
        hlt (ensureContainer_isSome _) hn hdepth
      rw [hr, ok_bind]
      obtain ⟨ok, q⟩ := r
      cases ok with
      | false => exact ⟨_, rfl, hret⟩
      | true =>
        obtain ⟨hqge, hqle, hqn⟩ := hret
        have hqge : past text isSpace p.json ≤ q.json := hqge
        have ⟨token, json, htok, hjge, hjle, hprog⟩ := nextToken_safe hqle
        simp only [Bool.not_true, Bool.false_eq_true, if_false, htok, ok_bind]
        by_cases hend : (token == EndArray) = true
        · rw [if_pos hend]
          exact ⟨_, rfl, by show p.json ≤ json; omega, hjle, hqn⟩
        rw [if_neg hend]
        by_cases hsep : (token != ValueSeparator) = true
        · rw [if_pos hsep, eatSpace_ok (p := { q with json }) hjle, ok_bind]
          exact completes_fail (@past_le text isSpace json hjle) _
        · rw [if_neg hsep]
          have htoken : token ≠ 0 := by
            intro h0
            rw [h0] at hsep
            exact hsep rfl
          have hprog := hprog htoken
          have hqn : q.nestingLevel = p.nestingLevel := hqn
          have ⟨r, hrest, hr⟩ := ih (p := { q with json }) hjle (by show q.nestingLevel ≤ _; omega)
            (by show _ < q.nestingLevel + _; omega) (by show _ < _ + json; omega)
          exact ⟨r, hrest, hr.trans (by show p.json ≤ json; omega) hqn⟩
    · simp only [decide_eq_false hlt, Bool.not_false, if_true]
      exact completes_fail hpast _

theorem completes_leave {r : Bool × Parser} (h : Returns text q r) (hjson : p.json ≤ q.json)
    (hn : q.nestingLevel = p.nestingLevel + 1) :
    Returns text p (leave r) := by
  obtain ⟨ok, s⟩ := r
  cases ok with
  | false => exact h
  | true =>
    refine ⟨Nat.le_trans hjson h.1, h.2.1, ?_⟩
    show s.nestingLevel - 1 = p.nestingLevel
    have hs : s.nestingLevel = q.nestingLevel := h.2.2
    omega

theorem parseArray_safe (hvalue : ParsesValue text depth value) (hle : p.json ≤ text.length)
    (hdepth : nestingLimit ≤ p.nestingLevel + depth) :
    Completes text p (p.parseArray text value) := by
  obtain ⟨q, hq⟩ : ∃ q : Parser, q = { p with nestingLevel := p.nestingLevel + 1 } := ⟨_, rfl⟩
  have hjson : q.json = p.json := by rw [hq]
  have hlevel : q.nestingLevel = p.nestingLevel + 1 := by rw [hq]
  unfold parseArray
  rw [← hq]
  have hqle : q.json ≤ text.length := by omega
  simp only
  by_cases hdeep : q.nestingLevel > nestingLimit
  · rw [if_pos hdeep]
    exact completes_fail hqle _
  have hpast := past_le isSpace hqle
  have hge := @le_past text isSpace q.json
  rw [if_neg hdeep, eatSpace_ok hqle, ok_bind]
  by_cases hlt : past text isSpace q.json < text.length
  · simp only [decide_eq_true hlt, Bool.not_true, Bool.false_eq_true, if_false, deref_of_lt hlt,
      ok_bind]
    by_cases hend : (text[past text isSpace q.json] == EndArray) = true
    · have ⟨token, json, htok, hjge, hjle, _⟩ :=
        nextToken_safe (p := { q with json := past text isSpace q.json }) hpast
      rw [if_pos hend, htok, ok_bind]
      have hjge : past text isSpace q.json ≤ json := hjge
      refine ⟨_, rfl, ?_, hjle, ?_⟩
      · show p.json ≤ json
        omega
      · show q.nestingLevel - 1 = p.nestingLevel
        omega
    · rw [if_neg hend]
      have ⟨r, hr, hret⟩ := arrayLoop_safe hvalue (text.length + 1)
        (p := { q with json := past text isSpace q.json }) hpast (Nat.not_lt.mp hdeep)
        (by show _ < q.nestingLevel + depth; omega)
        (by show _ < _ + past text isSpace q.json; omega)
      rw [hr, ok_bind]
      exact ⟨_, rfl, completes_leave hret (by show p.json ≤ past text isSpace q.json; omega) hlevel⟩
  · simp only [decide_eq_false hlt, Bool.not_false, if_true]
    exact completes_fail hpast _

theorem parseMember_safe (hvalue : ParsesValue text depth value) (hle : p.json ≤ text.length)
    (hc : p.container.isSome = true) (hn : p.nestingLevel ≤ nestingLimit)
    (hdepth : nestingLimit < p.nestingLevel + depth) :
    Completes text p (p.parseMember text value) := by
  have ⟨⟨ok, q⟩, hstr, hret, hsome⟩ := parseString_safe hle hc
  unfold parseMember
  rw [hstr, ok_bind]
  cases ok with
  | false => exact ⟨_, rfl, hret⟩
  | true =>
    obtain ⟨hqge, hqle, hqn⟩ := hret
    have ⟨token, json, htok, hjge, hjle, _⟩ := nextToken_safe hqle
    simp only [Bool.not_true, Bool.false_eq_true, if_false, htok, ok_bind]
    by_cases hsep : (token != NameSeparator) = true
    · rw [if_pos hsep]
      exact completes_fail hjle _
    have hpast := past_le isSpace hjle
    have hge := @le_past text isSpace json
    rw [if_neg hsep, eatSpace_ok (p := { q with json }) hjle, ok_bind]
    by_cases hlt : past text isSpace json < text.length
    · simp only [decide_eq_true hlt, Bool.not_true, Bool.false_eq_true, if_false]
      have ⟨r, hr, hret, _⟩ := hvalue { q with json := past text isSpace json } hlt (hsome rfl)
        (by show q.nestingLevel ≤ _; omega) (by show _ < q.nestingLevel + _; omega)
      rw [hr, ok_bind]
      exact ⟨r, rfl, hret.trans (by show p.json ≤ past text isSpace json; omega) hqn⟩
    · simp only [decide_eq_false hlt, Bool.not_false, if_true]
      exact completes_fail hpast _

theorem objectLoop_safe (hvalue : ParsesValue text depth value) (fuel : ℕ) (token : UInt8)
    {p : Parser} (hle : p.json ≤ text.length) (hn : p.nestingLevel ≤ nestingLimit)
    (hdepth : nestingLimit < p.nestingLevel + depth) (hfuel : text.length < fuel + p.json) :
    Completes text p (objectLoop text value fuel token p) := by
  induction fuel generalizing token p with
  | zero => omega
  | succ fuel ih =>
    unfold objectLoop
    by_cases hquote : (token == Quote) = true
    · have ⟨⟨ok, q⟩, hmem, hret⟩ :=
        parseMember_safe (p := p.ensureContainer) hvalue hle (ensureContainer_isSome p) hn hdepth
      rw [if_pos hquote, hmem, ok_bind]
      cases ok with
      | false => exact ⟨_, rfl, hret⟩
      | true =>
        obtain ⟨hqge, hqle, hqn⟩ := hret
        have hqge : p.json ≤ q.json := hqge
        have hqn : q.nestingLevel = p.nestingLevel := hqn
        have ⟨token₁, json₁, htok₁, hge₁, hle₁, hprog⟩ := nextToken_safe hqle
        simp only [Bool.not_true, Bool.false_eq_true, if_false, htok₁, ok_bind]
        by_cases hsep : (token₁ != ValueSeparator) = true
        · rw [if_pos hsep]
          by_cases hend : (token₁ != EndObject) = true
          · rw [if_pos hend]
            exact completes_fail hle₁ _
          · rw [if_neg hend]
            exact ⟨_, rfl, by show p.json ≤ json₁; omega, hle₁, hqn⟩
        · have htoken : token₁ ≠ 0 := by
            intro h0
            rw [h0] at hsep
            exact hsep rfl
          have hprog := hprog htoken
          have ⟨token₂, json₂, htok₂, hge₂, hle₂, _⟩ := nextToken_safe (p := { q with json := json₁ }) hle₁
          have hge₂ : json₁ ≤ json₂ := hge₂
          rw [if_neg hsep, htok₂, ok_bind]
          simp only
          by_cases hend : (token₂ == EndObject) = true
          · rw [if_pos hend]
            exact completes_fail hle₂ _
          · have ⟨r, hrest, hr⟩ := ih token₂ (p := { q with json := json₂ }) hle₂
              (by show q.nestingLevel ≤ _; omega) (by show _ < q.nestingLevel + _; omega)
              (by show _ < _ + json₂; omega)
            rw [if_neg hend, hrest]
            exact ⟨r, rfl, hr.trans (by show p.json ≤ json₂; omega) hqn⟩
    · rw [if_neg hquote]
      by_cases hend : (token != EndObject) = true
      · rw [if_pos hend]
        exact completes_fail hle _
      · rw [if_neg hend]
        exact ⟨_, rfl, Nat.le_refl _, hle, rfl⟩

theorem parseObject_safe (stableSort : StableSort) (hvalue : ParsesValue text depth value)
    (hle : p.json ≤ text.length) (hdepth : nestingLimit ≤ p.nestingLevel + depth) :
    Completes text p (p.parseObject text value stableSort) := by
  unfold parseObject
  simp only
  by_cases hdeep : p.nestingLevel + 1 > nestingLimit
  · rw [if_pos hdeep]
    exact completes_fail (q := { p with nestingLevel := p.nestingLevel + 1 }) hle _
  have ⟨token, json, htok, hjge, hjle, _⟩ :=
    nextToken_safe (p := { p with nestingLevel := p.nestingLevel + 1 }) hle
  have hjge : p.json ≤ json := hjge
  have ⟨⟨ok, q⟩, hr, hret⟩ := objectLoop_safe hvalue (text.length + 1) token
    (p := { p with json, nestingLevel := p.nestingLevel + 1 }) hjle (Nat.not_lt.mp hdeep)
    (by show _ < p.nestingLevel + 1 + depth; omega) (by show _ < _ + json; omega)
  rw [if_neg hdeep, htok, ok_bind]
  simp only
  rw [hr, ok_bind]
  cases ok with
  | false => exact ⟨_, rfl, hret⟩
  | true =>
    refine ⟨_, rfl, Nat.le_trans hjge hret.1, hret.2.1, ?_⟩
    show q.nestingLevel - 1 = p.nestingLevel
    have hq : q.nestingLevel = p.nestingLevel + 1 := hret.2.2
    omega

theorem stashed_safe (type : CborType) {call : Parser → Exec (Bool × Parser)}
    (hc : p.container.isSome = true)
    (h : Completes text { p with container := none } (call { p with container := none })) :
    Appends text p (p.stashed type call) := by
  obtain ⟨⟨ok, q⟩, hcall, hret⟩ := h
  obtain ⟨c, hpc⟩ := isSome_iff_exists.mp hc
  unfold stashed
  rw [hcall, ok_bind, hpc]
  refine ⟨_, rfl, ?_, fun _ => rfl⟩
  cases ok with
  | false => exact hret
  | true => exact hret

theorem parseValue_safe (decimal : Decimal) (stableSort : StableSort) (depth : ℕ) :
    ParsesValue text depth (parseValue text decimal stableSort depth) := by
  induction depth with
  | zero =>
    intro p _ _ hn hdepth
    omega
  | succ depth ih =>
    intro p hlt hc hn hdepth
    obtain ⟨q, hq⟩ : ∃ q : Parser, q = { p with json := p.json + 1 } := ⟨_, rfl⟩
    have hjson : q.json = p.json + 1 := by rw [hq]
    have hlevel : q.nestingLevel = p.nestingLevel := by rw [hq]
    have hqc : q.container.isSome = true := by rw [hq]; exact hc
    have hqle : q.json ≤ text.length := by omega
    have hback : ∀ {x : Exec (Bool × Parser)}, Appends text q x → Appends text p x :=
      fun ⟨r, hr, hret, hsome⟩ => ⟨r, hr, hret.trans (by omega) hlevel, hsome⟩
    unfold parseValue
    rw [deref_of_lt hlt, ok_bind, ← hq]
    simp only
    split
    · exact hback (parseLiteral_safe hqle hqc (by decide) _)
    split
    · exact hback (parseLiteral_safe hqle hqc (by decide) _)
    split
    · exact hback (parseLiteral_safe hqle hqc (by decide) _)
    split
    · exact hback (parseString_safe hqle hqc)
    split
    · have harray := parseArray_safe (p := { q with container := none }) ih hqle
        (by show _ ≤ q.nestingLevel + _; omega)
      exact hback (stashed_safe .array hqc harray)
    split
    · have hobject := parseObject_safe (p := { q with container := none }) stableSort ih hqle
        (by show _ ≤ q.nestingLevel + _; omega)
      exact hback (stashed_safe .map hqc hobject)
    split
    · exact appends_fail hqle _
    split
    · exact appends_fail hqle _
    · exact parseNumber_safe decimal (Nat.le_of_lt hlt) hc

theorem eatBOM_safe (hle : p.json ≤ text.length) : ∃ json,
    p.eatBOM text = .ok { p with json } ∧ json ≤ text.length := by
  unfold eatBOM
  by_cases hlong : text.length - p.json > 3
  · have ⟨matched, json, hm, hge, hjson⟩ :=
      @matchLetters_safe text QUtf8.utf8bom p.json (by
        show p.json + 3 ≤ _
        omega)
    rw [if_pos hlong, hm, ok_bind]
    cases matched with
    | false => exact ⟨p.json, rfl, hle⟩
    | true => exact ⟨json, rfl, hjson⟩
  · rw [if_neg hlong]
    exact ⟨p.json, rfl, hle⟩

/-- How a call of `parse` has gone. -/
def Reports (text : List UInt8) (x : Exec (QCborValue × QJsonParseError)) : Prop :=
  ∃ value error, x = .ok (value, error) ∧ (error.offset ≤ text.length ∨
    error.offset = text.length + 1 ∧ error.error = .unterminatedString)

theorem finish_safe (type : CborType) {x : Exec (Bool × Parser)}
    (h : Completes text q x) : Reports text (do
      let r ← x
      parse.finish text type r) := by
  obtain ⟨⟨ok, s⟩, hx, hret⟩ := h
  rw [hx, ok_bind]
  cases ok with
  | false => exact ⟨_, _, rfl, hret⟩
  | true =>
    obtain ⟨_, hle, _⟩ := hret
    simp only [parse.finish, eatSpace_ok hle, ok_bind]
    by_cases hlt : past text isSpace s.json < text.length
    · simp only [decide_eq_true hlt, if_true]
      exact ⟨_, _, rfl, Or.inl (past_le isSpace hle)⟩
    · simp only [decide_eq_false hlt, Bool.false_eq_true, if_false]
      exact ⟨_, _, rfl, Or.inl (Nat.zero_le _)⟩

end JsonParser

end QtBase
