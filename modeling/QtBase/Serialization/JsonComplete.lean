import QtBase.Serialization.JsonSort

/-! The parser reads every text of the grammar: each function, called where a derivation begins, ends
where it ends, with what the text denotes appended to the container. -/
namespace QtBase

open JsonParser Json Unicode QCborContainerPrivate List

namespace JsonParser

variable {text : List UInt8}

/-! ## Positions -/

/-- What is left of the text at a position. -/
structure At (text : List UInt8) (json : ℕ) (rest : List UInt8) : Prop where
  le : json ≤ text.length
  drop : text.drop json = rest

namespace At

variable {json : ℕ} {w rest : List UInt8}

theorem append (h : At text json (w ++ rest)) : At text (json + w.length) rest := by
  have hlen := length_of_drop h.le h.drop
  exact ⟨by omega, drop_append h.drop⟩

theorem length (h : At text json rest) : json + rest.length = text.length := by
  have hlen := congrArg List.length h.drop
  have hle := h.le
  rw [length_drop] at hlen
  omega

theorem cons {c : UInt8} (h : At text json (c :: rest)) :
    deref text json = .ok c ∧ At text (json + 1) rest := by
  have ⟨hderef, hlt, hdrop⟩ := deref_of_drop h.drop
  exact ⟨hderef, hlt, hdrop⟩

end At

variable {c : UInt8} {p : Parser}

theorem eatSpace_at {w : List UInt8} {rest : List UInt8} (h : At text p.json (w ++ c :: rest))
    (hw : Ws w) (hc : isSpace c = false) :
    At text (p.json + w.length) (c :: rest) ∧
      p.eatSpace text = .ok (true, { p with json := p.json + w.length }) := by
  have hat := h.append
  have hlen := hat.length
  rw [length_cons] at hlen
  refine ⟨hat, ?_⟩
  rw [eatSpace_ok h.le, past_append h.drop hw (stops_cons hc), decide_eq_true (by omega)]

theorem nextToken_at {w : List UInt8} {rest : List UInt8} (h : At text p.json (w ++ c :: rest))
    (hw : Ws w) (hc : isSpace c = false) :
    At text (p.json + w.length + 1) rest ∧
      p.nextToken text = .ok (tokenOf c, { p with json := p.json + w.length + 1 }) := by
  have ⟨hat, heat⟩ := eatSpace_at h hw hc
  have ⟨hderef, hat'⟩ := hat.cons
  refine ⟨hat', ?_⟩
  unfold Parser.nextToken
  rw [heat, ok_bind]
  simp only [Bool.not_true, Bool.false_eq_true, if_false]
  rw [hderef, ok_bind]
  rfl

theorem matchLetters_at {letters : List UInt8} {json : ℕ} {rest : List UInt8}
    (h : At text json (letters ++ rest)) :
    Parser.matchLetters text letters json = .ok (true, json + letters.length) := by
  induction letters generalizing json with
  | nil => rfl
  | cons letter letters ih =>
    have ⟨hderef, hat⟩ := h.cons
    unfold Parser.matchLetters
    rw [hderef, ok_bind, if_pos (beq_self_eq_true letter), ih hat, List.length_cons]
    apply congrArg fun n => Except.ok (true, n)
    omega

theorem parseLiteral_at {c : QCborContainerPrivate} {needed : ℕ} {letters rest : List UInt8}
    (value : QCborValue) (h : At text p.json (letters ++ rest))
    (hneeded : needed ≤ letters.length + 1) (hrest : rest ≠ []) (hc : p.container = some c) :
    p.parseLiteral text needed letters value = .ok (true, { p with
      json := p.json + letters.length
      container := some (c.append value) }) := by
  have hlen := h.length
  have hpos := length_pos_iff.mpr hrest
  rw [length_append] at hlen
  have happend := Parser.append_ok (c := c) (p := { p with json := p.json + letters.length }) hc value
  unfold Parser.parseLiteral
  rw [if_neg (by omega), matchLetters_at h, ok_bind]
  simp [happend]

/-! ## First characters -/

theorem tokenOf_of_isToken (h : isToken c = true) : tokenOf c = c := if_pos h

variable {t : List UInt8}

theorem NumberText.head (h : NumberText t) : ∃ c r, t = c :: r ∧
    (c = 0x2d ∨ isAsciiDigit c = true) := by
  cases h with
  | mk hminus hint hfrac hexp =>
    rcases hminus with hminus | hminus
    · rw [hminus, nil_append]
      cases hint with
      | zero => exact ⟨_, _, rfl, .inr rfl⟩
      | digits hc _ _ => exact ⟨_, _, rfl, .inr hc⟩
    · rw [hminus]
      exact ⟨_, _, rfl, .inl rfl⟩

theorem head_of_number : ∀ c : UInt8, (c = 0x2d ∨ isAsciiDigit c = true) → isSpace c = false ∧
    isToken c = false ∧ c ≠ 0x6e ∧ c ≠ 0x74 ∧ c ≠ 0x66 :=
  uint8_all (by decide +kernel)

variable {j : Json}

theorem ValueText.head {decimal : Decimal} {n : ℕ}
    (h : ValueText decimal n t j) : ∃ c r, t = c :: r ∧ isSpace c = false ∧ c ≠ EndArray := by
  cases h with
  | null => exact ⟨_, _, rfl, rfl, by decide⟩
  | true => exact ⟨_, _, rfl, rfl, by decide⟩
  | false => exact ⟨_, _, rfl, rfl, by decide⟩
  | number ht _ =>
    have ⟨c, r, hcr, hc⟩ := NumberText.head ht
    have ⟨hspace, htoken, _⟩ := head_of_number c hc
    refine ⟨c, r, hcr, hspace, ?_⟩
    intro heq
    rw [heq] at htoken
    cases htoken
  | string ht =>
    cases ht with
    | plain _ => exact ⟨_, _, rfl, rfl, by decide⟩
    | escaped _ _ => exact ⟨_, _, rfl, rfl, by decide⟩
  | emptyArray _ => exact ⟨_, _, rfl, rfl, by decide⟩
  | array _ => exact ⟨_, _, rfl, rfl, by decide⟩
  | emptyObject _ => exact ⟨_, _, rfl, rfl, by decide⟩
  | object _ => exact ⟨_, _, rfl, rfl, by decide⟩

theorem StringText.head {s : Str} (h : StringText t s) :
    ∃ t', t = Quote :: t' := by
  cases h with
  | plain _ => exact ⟨_, rfl⟩
  | escaped _ _ => exact ⟨_, rfl⟩

theorem follows_of_ws {w : List UInt8} {rest : List UInt8} (hw : Ws w)
    (hc : c = ValueSeparator ∨ c = EndArray ∨ c = EndObject) : Follows (w ++ c :: rest) := by
  cases w with
  | nil => exact .mk (.inr hc)
  | cons a w => exact .mk (.inl (hw a mem_cons_self))

/-! ## Arrays -/

/-- A function that reads a text, where so many arrays and objects may be opened. -/
def Reads (text : List UInt8) (P : Val → Json → Prop) (n : ℕ)
    (value : Parser → Exec (Bool × Parser)) (t : List UInt8) (j : Json) : Prop :=
  ∀ p c rest, At text p.json (t ++ rest) → Follows rest → p.container = some c → c.HasRecords →
    p.nestingLevel + n ≤ nestingLimit → ∃ json c' v, At text json rest ∧ c'.HasRecords ∧
      c'.vals = c.vals ++ [v] ∧ P v j ∧
      value p = .ok (true, { p with json, container := some c' })

variable {P : Val → Json → Prop} {n : ℕ} {value : Parser → Exec (Bool × Parser)}

variable {w' : List UInt8}

theorem arrayLoop_step {w rest : List UInt8} {sep : UInt8} (fuel : ℕ)
    (hvalue : Reads text P n value t j) (hhead : ∃ c r, t = c :: r ∧ isSpace c = false)
    (h : At text p.json (w ++ (t ++ (w' ++ sep :: rest)))) (hw : Ws w) (hw' : Ws w')
    (hsep : sep = EndArray ∨ sep = ValueSeparator) (hrec : (p.container.getD .empty).HasRecords)
    (hn : p.nestingLevel + n ≤ nestingLimit) :
    ∃ json c' v, At text json rest ∧ c'.HasRecords ∧
      c'.vals = (p.container.getD .empty).vals ++ [v] ∧ P v j ∧
      Parser.arrayLoop text value (fuel + 1) p =
        if sep == EndArray then .ok (true, { p with json, container := some c' })
        else Parser.arrayLoop text value fuel { p with json, container := some c' } := by
  obtain ⟨c, r, ht, hc⟩ := hhead
  have hfollows : Follows (w' ++ sep :: rest) := follows_of_ws hw' (by tauto)
  have hspace : isSpace sep = false := by
    rcases hsep with hsep | hsep
    · rw [hsep]
      rfl
    · rw [hsep]
      rfl
  have htoken : tokenOf sep = sep := by
    rcases hsep with hsep | hsep
    · rw [hsep]
      rfl
    · rw [hsep]
      rfl
  have h' := h
  rw [ht, cons_append] at h'
  have ⟨_, heat⟩ := eatSpace_at h' hw hc
  have hat := h.append
  have ⟨json, c', v, hjson, hrec', hvals, hv, hcall⟩ := hvalue
    (Parser.ensureContainer { p with json := p.json + w.length }) (p.container.getD .empty)
    (w' ++ sep :: rest) hat hfollows rfl hrec hn
  have hnext : At text (Parser.json { p with json, container := some c' }) (w' ++ sep :: rest) := hjson
  have ⟨hrest, htok⟩ := nextToken_at hnext hw' hspace
  refine ⟨json + w'.length + 1, c', v, hrest, hrec', hvals, hv, ?_⟩
  rw [Parser.arrayLoop, heat, ok_bind]
  simp only [Bool.not_true, Bool.false_eq_true, if_false]
  rw [hcall, ok_bind]
  simp only [Bool.not_true, Bool.false_eq_true, if_false]
  unfold Parser.ensureContainer
  rw [htok, ok_bind, htoken]
  rcases hsep with hsep | hsep
  · rw [hsep]
    rfl
  · rw [hsep]
    rfl

variable {js : List Json}

theorem arrayLoop_ok {decimal : Decimal}
    (hvalue : ∀ t j, ValueText decimal n t j → Reads text P n value t j)
    (ht : ElementsText decimal n t js) (fuel : ℕ) (p : Parser) (rest : List UInt8)
    (h : At text p.json (t ++ EndArray :: rest)) (hrec : (p.container.getD .empty).HasRecords)
    (hn : p.nestingLevel + n ≤ nestingLimit) (hfuel : t.length < fuel) :
    ∃ json c' vs, At text json rest ∧ c'.HasRecords ∧
      c'.vals = (p.container.getD .empty).vals ++ vs ∧ List.Forall₂ P vs js ∧
      Parser.arrayLoop text value fuel p = .ok (true, { p with json, container := some c' }) := by
  induction js generalizing t fuel p with
  | nil => cases ht
  | cons j js ih =>
    cases fuel with
    | zero => omega
    | succ fuel =>
      cases ht with
      | @one _ w t w' _ hw htext hw' =>
        have ⟨c, r, hhead, hspace, _⟩ := ValueText.head htext
        rw [append_assoc, append_assoc] at h
        have ⟨json, c', v, hjson, hrec', hvals, hv, hcall⟩ := arrayLoop_step fuel
          (hvalue t j htext) ⟨c, r, hhead, hspace⟩ h hw hw' (.inl rfl) hrec hn
        exact ⟨json, c', [v], hjson, hrec', hvals, .cons hv .nil, hcall⟩
      | @cons _ w t w' ts _ _ hw htext hw' hts =>
        have ⟨c, r, hhead, hspace, _⟩ := ValueText.head htext
        rw [append_assoc, append_assoc, append_assoc] at h
        have ⟨json, c', v, hjson, hrec', hvals, hv, hcall⟩ := arrayLoop_step fuel
          (hvalue t j htext) ⟨c, r, hhead, hspace⟩ h hw hw' (.inr rfl) hrec hn
        have hlen : ts.length < fuel := by
          rw [length_append, length_append, length_append, length_cons] at hfuel
          omega
        have ⟨json', c'', vs, hjson', hrec'', hvals', hvs, hcall'⟩ := ih hts fuel
          { p with json, container := some c' } hjson hrec' hn hlen
        refine ⟨json', c'', v :: vs, hjson', hrec'', ?_, .cons hv hvs, ?_⟩
        · simp [hvals', hvals]
        · rw [hcall]
          exact hcall'

theorem ws_nil : Ws [] := fun _ hc => absurd hc not_mem_nil

/-- Elements without the whitespace before them. -/
theorem ElementsText.trim {decimal : Decimal}
    (h : ElementsText decimal n t js) : ∃ w t', t = w ++ t' ∧ Ws w ∧ ElementsText decimal n t' js ∧
      ∃ c r, t' = c :: r ∧ isSpace c = false ∧ c ≠ EndArray := by
  cases h with
  | @one _ w t w' j hw htext hw' =>
    have ⟨c, r, hhead, hc⟩ := ValueText.head htext
    refine ⟨w, t ++ w', rfl, hw, .one ws_nil htext hw', c, r ++ w', ?_, hc⟩
    rw [hhead]
    rfl
  | @cons _ w t w' ts j js hw htext hw' hts =>
    have ⟨c, r, hhead, hc⟩ := ValueText.head htext
    refine ⟨w, t ++ (w' ++ ValueSeparator :: ts), rfl, hw, .cons ws_nil htext hw' hts, c,
      r ++ (w' ++ ValueSeparator :: ts), ?_, hc⟩
    rw [hhead]
    rfl

theorem contains_makeValue (type : CborType) (htype : type = .array ∨ type = .map)
    (container : Option QCborContainerPrivate) : (makeValue type container).Refers ∧
      (makeValue type container).val.Contains type (container.getD .empty).vals := by
  cases container with
  | none =>
    refine ⟨trivial, ?_⟩
    show Val.Contains type (.value type (if _ then 0 else -1)) []
    rw [if_pos htype]
    exact .none
  | some c => exact ⟨trivial, .container _⟩

/-- A call that opens an array or an object where nothing is in the container. -/
def Fills (text : List UInt8) (Q : QCborContainerPrivate → Prop) (n : ℕ) (call : Parser → Exec (Bool × Parser))
    (t : List UInt8) : Prop :=
  ∀ p rest, At text p.json (t ++ rest) → (p.container = none ∨ p.container = some .empty) →
    p.nestingLevel + n ≤ nestingLimit → ∃ json container, At text json rest ∧
      Q (container.getD .empty) ∧ call p = .ok (true, { p with json, container })

theorem getD_empty (h : p.container = none ∨ p.container = some .empty) :
    p.container.getD .empty = .empty := by
  rcases h with h | h
  · rw [h]
    rfl
  · rw [h]
    rfl

theorem parseArray_ok {decimal : Decimal}
    (hvalue : ∀ t j, ValueText decimal n t j → Reads text P n value t j)
    (ht : (js = [] ∧ Ws t) ∨ ElementsText decimal n t js) :
    Fills text (fun c => c.HasRecords ∧ List.Forall₂ P c.vals js) (n + 1)
      (fun p => p.parseArray text value) (t ++ [EndArray]) := by
  intro p rest h hempty hn
  rw [append_assoc] at h
  show ∃ json container, _ ∧ _ ∧ p.parseArray text value = _
  unfold Parser.parseArray
  simp only
  rw [if_neg (by omega)]
  rcases ht with ⟨hjs, hw⟩ | ht
  · have ⟨hat, heat⟩ := eatSpace_at (p := { p with nestingLevel := p.nestingLevel + 1 }) h hw rfl
    have ⟨hat', htok⟩ := nextToken_at (w := []) (p := { p with
      nestingLevel := p.nestingLevel + 1
      json := p.json + t.length }) hat (fun c hc => absurd hc not_mem_nil) rfl
    refine ⟨p.json + t.length + 1, p.container, hat', ?_, ?_⟩
    · rw [hjs, getD_empty hempty]
      exact ⟨hasRecords_empty, .nil⟩
    · rw [heat, ok_bind]
      simp only [Bool.not_true, Bool.false_eq_true, if_false]
      rw [hat.cons.1, ok_bind, if_pos (by decide), htok, ok_bind]
      rfl
  · have ⟨w, t', htrim, hw, ht', c, r, hhead, hspace, hend⟩ := ElementsText.trim ht
    rw [htrim, append_assoc, hhead] at h
    have ⟨hat, heat⟩ := eatSpace_at (p := { p with nestingLevel := p.nestingLevel + 1 }) h hw hspace
    have hloop : At text (p.json + w.length) (t' ++ EndArray :: rest) := by
      rw [hhead]
      exact hat
    have hrec : ((p.container).getD .empty).HasRecords := by
      rw [getD_empty hempty]
      exact hasRecords_empty
    have hfuel : t'.length < text.length + 1 := by
      have hlen := hloop.length
      rw [length_append] at hlen
      omega
    have ⟨json, c', vs, hjson, hrec', hvals, hvs, hcall⟩ := arrayLoop_ok hvalue ht' (text.length + 1)
      { p with nestingLevel := p.nestingLevel + 1, json := p.json + w.length } rest hloop hrec
      (by show p.nestingLevel + 1 + n ≤ _; omega) hfuel
    refine ⟨json, some c', hjson, ⟨hrec', ?_⟩, ?_⟩
    · rw [Option.getD_some, hvals]
      show List.Forall₂ P ((p.container.getD .empty).vals ++ vs) js
      rw [getD_empty hempty]
      exact hvs
    · rw [heat, ok_bind]
      simp only [Bool.not_true, Bool.false_eq_true, if_false]
      rw [hat.cons.1, ok_bind, if_neg (by rwa [beq_iff_eq]), hcall, ok_bind]
      rfl

/-! ## Objects -/

theorem parseMember_ok {c : QCborContainerPrivate} {k w₁ rest : List UInt8} {s : Str}
    (hk : StringText (Quote :: k) s) (hvalue : Reads text P n value t j)
    (hhead : ∃ c r, t = c :: r ∧ isSpace c = false)
    (h : At text p.json (k ++ (w' ++ NameSeparator :: (w₁ ++ (t ++ rest))))) (hw' : Ws w')
    (hw₁ : Ws w₁) (hfollows : Follows rest) (hc : p.container = some c) (hrec : c.HasRecords)
    (hn : p.nestingLevel + n ≤ nestingLimit) : ∃ json c' v, At text json rest ∧ c'.HasRecords ∧
      c'.vals = c.vals ++ [s.val, v] ∧ P v j ∧
      p.parseMember text value = .ok (true, { p with json, container := some c' }) := by
  obtain ⟨x, r, ht, hx⟩ := hhead
  have hne : w' ++ NameSeparator :: (w₁ ++ (t ++ rest)) ≠ [] := by
    apply append_ne_nil_of_right_ne_nil
    exact cons_ne_nil _ _
  have ⟨c₁, hrec₁, hvals₁, hstring⟩ := parseString_ok hk h.le h.drop hne hc hrec
  have ⟨hat₂, htok⟩ := nextToken_at (p := { p with
    json := p.json + k.length
    container := some c₁ }) h.append hw' rfl
  have hat₂' := hat₂
  rw [ht, cons_append] at hat₂'
  have ⟨_, heat⟩ := eatSpace_at (p := { p with
    json := p.json + k.length + w'.length + 1
    container := some c₁ }) hat₂' hw₁ hx
  have ⟨json, c₂, v, hjson, hrec₂, hvals₂, hv, hcall⟩ := hvalue { p with
    json := p.json + k.length + w'.length + 1 + w₁.length
    container := some c₁ } c₁ rest hat₂.append hfollows rfl hrec₁ hn
  refine ⟨json, c₂, v, hjson, hrec₂, ?_, hv, ?_⟩
  · simp [hvals₂, hvals₁]
  · unfold Parser.parseMember
    rw [hstring, ok_bind]
    simp only [Bool.not_true, Bool.false_eq_true, if_false]
    rw [htok, ok_bind]
    simp only
    rw [tokenOf_of_isToken rfl, if_neg (by decide), heat, ok_bind]
    simp only [Bool.not_true, Bool.false_eq_true, if_false]
    rw [hcall, ok_bind]
    rfl

theorem objectLoop_step {w k w₁ w₂ rest : List UInt8} {sep : UInt8} {s : Str} (fuel : ℕ)
    (hk : StringText k s) (hvalue : Reads text P n value t j)
    (hhead : ∃ c r, t = c :: r ∧ isSpace c = false)
    (h : At text p.json (w ++ (k ++ (w' ++ NameSeparator :: (w₁ ++ (t ++ (w₂ ++ sep :: rest)))))))
    (hw : Ws w) (hw' : Ws w') (hw₁ : Ws w₁) (hw₂ : Ws w₂)
    (hsep : sep = EndObject ∨ sep = ValueSeparator) (hrec : (p.container.getD .empty).HasRecords)
    (hn : p.nestingLevel + n ≤ nestingLimit) :
    ∃ json₀ json c' v, p.nextToken text = .ok (Quote, { p with json := json₀ }) ∧
      At text json rest ∧ c'.HasRecords ∧
      c'.vals = (p.container.getD .empty).vals ++ [s.val, v] ∧ P v j ∧
      Parser.objectLoop text value (fuel + 1) Quote { p with json := json₀ } =
        if sep == EndObject then .ok (true, { p with json, container := some c' })
        else (do
          let (token, q) ← Parser.nextToken text { p with json, container := some c' }
          if token == EndObject then pure (q.fail .missingObject)
          else Parser.objectLoop text value fuel token q) := by
  obtain ⟨k', hk'⟩ := StringText.head hk
  rw [hk'] at h hk
  have hfollows : Follows (w₂ ++ sep :: rest) := follows_of_ws hw₂ (by tauto)
  have hspace : isSpace sep = false := by
    rcases hsep with hsep | hsep
    · rw [hsep]
      rfl
    · rw [hsep]
      rfl
  have htoken : tokenOf sep = sep := by
    rcases hsep with hsep | hsep
    · rw [hsep]
      rfl
    · rw [hsep]
      rfl
  have ⟨hat, htok⟩ := nextToken_at h hw rfl
  have ⟨json, c', v, hjson, hrec', hvals, hv, hmember⟩ := parseMember_ok
    (p := Parser.ensureContainer { p with json := p.json + w.length + 1 }) hk hvalue hhead hat hw'
    hw₁ hfollows rfl hrec hn
  have hnext : At text (Parser.json { p with json, container := some c' }) (w₂ ++ sep :: rest) := hjson
  have ⟨hrest, htok'⟩ := nextToken_at hnext hw₂ hspace
  refine ⟨p.json + w.length + 1, json + w₂.length + 1, c', v, htok, hrest, hrec', hvals, hv, ?_⟩
  rw [Parser.objectLoop, if_pos (by decide), hmember, ok_bind]
  simp only [Bool.not_true, Bool.false_eq_true, if_false]
  unfold Parser.ensureContainer
  rw [htok', ok_bind, htoken]
  rcases hsep with hsep | hsep
  · rw [hsep]
    rfl
  · rw [hsep]
    rfl

variable {ms : List (Str × Json)}

theorem objectLoop_ok {decimal : Decimal}
    (hvalue : ∀ t j, ValueText decimal n t j → Reads text P n value t j)
    (ht : MembersText decimal n t ms) (fuel : ℕ) (p : Parser) (rest : List UInt8)
    (h : At text p.json (t ++ EndObject :: rest)) (hrec : (p.container.getD .empty).HasRecords)
    (hn : p.nestingLevel + n ≤ nestingLimit) (hfuel : t.length < fuel) :
    ∃ json₀ json c' vs, p.nextToken text = .ok (Quote, { p with json := json₀ }) ∧
      At text json rest ∧ c'.HasRecords ∧
      c'.vals = (p.container.getD .empty).vals ++ vs ∧ StoredMembers P vs ms ∧
      Parser.objectLoop text value fuel Quote { p with json := json₀ } =
        .ok (true, { p with json, container := some c' }) := by
  induction ms generalizing t fuel p with
  | nil => cases ht
  | cons m ms ih =>
    cases fuel with
    | zero => omega
    | succ fuel =>
      cases ht with
      | @one _ w k w' w₁ t w₂ s j hw hk hw' hw₁ htext hw₂ =>
        have ⟨c, r, hhead, hspace, _⟩ := ValueText.head htext
        simp only [append_assoc, cons_append] at h
        have ⟨json₀, json, c', v, htok, hjson, hrec', hvals, hv, hcall⟩ := objectLoop_step fuel hk
          (hvalue t j htext) ⟨c, r, hhead, hspace⟩ h hw hw' hw₁ hw₂ (.inl rfl) hrec hn
        exact ⟨json₀, json, c', [s.val, v], htok, hjson, hrec', hvals, .cons hv .nil, hcall⟩
      | @cons _ w k w' w₁ t w₂ ts s j _ hw hk hw' hw₁ htext hw₂ hts =>
        have ⟨c, r, hhead, hspace, _⟩ := ValueText.head htext
        have hlen : ts.length < fuel := by
          simp only [length_append, length_cons] at hfuel
          omega
        simp only [append_assoc, cons_append] at h
        have ⟨json₀, json, c', v, htok, hjson, hrec', hvals, hv, hcall⟩ := objectLoop_step fuel hk
          (hvalue t j htext) ⟨c, r, hhead, hspace⟩ h hw hw' hw₁ hw₂ (.inr rfl) hrec hn
        have ⟨json₁, json', c'', vs, htok', hjson', hrec'', hvals', hvs, hcall'⟩ := ih hts fuel
          { p with json, container := some c' } hjson hrec' hn hlen
        refine ⟨json₀, json', c'', s.val :: v :: vs, htok, hjson', hrec'', ?_, .cons hv hvs, ?_⟩
        · simp [hvals', hvals]
        · rw [hcall, if_neg (by decide), htok', ok_bind]
          exact hcall'

/-- What a sorting function does to the members of an object: it keeps some of them, or they have no
order and nothing is known. -/
structure Keeps (stableSort : Parser.StableSort)
    (keeps : List (Str × Json) → List (Str × Json) → Prop) (stray : List (Str × Json) → Prop) :
    Prop where
  empty : keeps [] []
  sorted : ∀ P c ms, c.HasRecords → StoredMembers P c.vals ms → stray ms ∨
    (Parser.sortContainer stableSort c).HasRecords ∧
      ∃ kept, keeps ms kept ∧ StoredMembers P (Parser.sortContainer stableSort c).vals kept

variable {keeps : List (Str × Json) → List (Str × Json) → Prop} {stray : List (Str × Json) → Prop}

theorem parseObject_ok {decimal : Decimal} {stableSort : Parser.StableSort}
    (hkeeps : Keeps stableSort keeps stray)
    (hvalue : ∀ t j, ValueText decimal n t j → Reads text P n value t j)
    (ht : (ms = [] ∧ Ws t) ∨ MembersText decimal n t ms) :
    Fills text (fun c => stray ms ∨ c.HasRecords ∧
        ∃ kept, keeps ms kept ∧ StoredMembers P c.vals kept) (n + 1)
      (fun p => p.parseObject text value stableSort) (t ++ [EndObject]) := by
  intro p rest h hempty hn
  rw [append_assoc] at h
  show ∃ json container, _ ∧ _ ∧ p.parseObject text value stableSort = _
  unfold Parser.parseObject
  simp only
  rw [if_neg (by omega)]
  rcases ht with ⟨hms, hw⟩ | ht
  · have ⟨hat, htok⟩ := nextToken_at (p := { p with nestingLevel := p.nestingLevel + 1 }) h hw rfl
    refine ⟨p.json + t.length + 1, p.container.map (Parser.sortContainer stableSort), hat, ?_, ?_⟩
    · rcases hempty with hempty | hempty
      · rw [hempty, hms]
        exact .inr ⟨hasRecords_empty, [], hkeeps.empty, .nil⟩
      · rw [hempty, hms]
        exact hkeeps.sorted P .empty [] hasRecords_empty .nil
    · rw [htok, ok_bind]
      rfl
  · have hrec : ((p.container).getD .empty).HasRecords := by
      rw [getD_empty hempty]
      exact hasRecords_empty
    have hfuel : t.length < text.length + 1 := by
      have hlen := h.length
      rw [length_append] at hlen
      omega
    have ⟨json₀, json, c', vs, htok, hjson, hrec', hvals, hvs, hcall⟩ := objectLoop_ok hvalue ht
      (text.length + 1) { p with nestingLevel := p.nestingLevel + 1 } rest h hrec
      (by show p.nestingLevel + 1 + n ≤ _; omega) hfuel
    refine ⟨json, some (Parser.sortContainer stableSort c'), hjson, ?_, ?_⟩
    · apply hkeeps.sorted P c' ms hrec'
      rw [hvals]
      show StoredMembers P ((p.container.getD .empty).vals ++ vs) ms
      rw [getD_empty hempty]
      exact hvs
    · rw [htok, ok_bind]
      simp only
      rw [hcall, ok_bind]
      rfl

/-! ## Values -/

variable {call : Parser → Exec (Bool × Parser)}

theorem stashed_ok {Q : QCborContainerPrivate → Prop} {rest : List UInt8}
    (hcall : Fills text Q n call t) {c : QCborContainerPrivate} {type : CborType}
    (htype : type = .array ∨ type = .map) (h : At text p.json (t ++ rest))
    (hc : p.container = some c) (hrec : c.HasRecords) (hn : p.nestingLevel + n ≤ nestingLimit) :
    ∃ json c' v d, At text json rest ∧ c'.HasRecords ∧ c'.vals = c.vals ++ [v] ∧
      v.Contains type d.vals ∧ Q d ∧
      p.stashed type call = .ok (true, { p with json, container := some c' }) := by
  have ⟨json, container, hjson, hQ, heq⟩ := hcall { p with container := none } rest h
    (.inl rfl) hn
  have ⟨hrefers, hcontains⟩ := contains_makeValue type htype container
  have ⟨hvals, hrec'⟩ := append_spec hrec hrefers
  refine ⟨json, c.append (makeValue type container), (makeValue type container).val, _, hjson, hrec',
    hvals, hcontains, hQ, ?_⟩
  unfold Parser.stashed
  rw [heq, ok_bind, hc]
  rfl

section

variable (keeps : List (Str × Json) → List (Str × Json) → Prop) (stray : List (Str × Json) → Prop)

mutual

/-- What the parser makes of a text with a sorting function as in `Keeps`. -/
inductive Parsed : Val → Json → Prop
  | null : Parsed (.value .null 0) .null
  | true : Parsed (.value .isTrue 0) (.bool true)
  | false : Parsed (.value .isFalse 0) (.bool false)
  | number (n : Int64) : Parsed (.value .integer n) (.number n)
  | double (bits : Int64) : Parsed (.value .double bits) (.double bits)
  | string (s : Str) : Parsed s.val (.string s)
  | array {v : Val} {vs : List Val} {js : List Json} : v.Contains .array vs →
      ParsedElements vs js → Parsed v (.array js)
  | object {v : Val} {vs : List Val} {ms kept : List (Str × Json)} : v.Contains .map vs →
      keeps ms kept → ParsedMembers vs kept → Parsed v (.object ms)
  | stray {v : Val} {ms : List (Str × Json)} : stray ms → Parsed v (.object ms)

inductive ParsedElements : List Val → List Json → Prop
  | nil : ParsedElements [] []
  | cons {v : Val} {j : Json} {vs : List Val} {js : List Json} : Parsed v j →
      ParsedElements vs js → ParsedElements (v :: vs) (j :: js)

inductive ParsedMembers : List Val → List (Str × Json) → Prop
  | nil : ParsedMembers [] []
  | cons {s : Str} {v : Val} {j : Json} {vs : List Val} {ms : List (Str × Json)} : Parsed v j →
      ParsedMembers vs ms → ParsedMembers (s.val :: v :: vs) ((s, j) :: ms)

end

end

theorem parsedElements_of_forall₂ {vs : List Val}
    (h : List.Forall₂ (Parsed keeps stray) vs js) : ParsedElements keeps stray vs js := by
  induction h with
  | nil => exact .nil
  | cons hv _ ih => exact .cons hv ih

theorem parsedMembers_of_stored {vs : List Val}
    (h : StoredMembers (Parsed keeps stray) vs ms) : ParsedMembers keeps stray vs ms := by
  induction h with
  | nil => exact .nil
  | cons hv _ ih => exact .cons hv ih

theorem IsNumber.parsed {v : QCborValue} (h : IsNumber v j) :
    v.Refers ∧ Parsed keeps stray v.val j := by
  cases h with
  | number n => exact ⟨trivial, .number n⟩
  | double bits => exact ⟨trivial, .double bits⟩

theorem reads_literal {value : QCborValue} {first : UInt8} {letters : List UInt8} {needed : ℕ}
    (hrefers : value.Refers) (hparsed : P value.val j) (hneeded : needed ≤ letters.length + 1)
    (hcall : ∀ p : Parser, deref text p.json = .ok first → call p = Parser.parseLiteral text { p with json := p.json + 1 } needed letters value) :
    Reads text P n call (first :: letters) j := by
  intro p c rest h hfollows hc hrec _
  have ⟨hderef, hat⟩ := h.cons
  have hrest : rest ≠ [] := by
    cases hfollows with
    | mk _ => exact cons_ne_nil _ _
  have ⟨hvals, hrec'⟩ := append_spec hrec hrefers
  have hliteral := parseLiteral_at (p := { p with json := p.json + 1 }) value hat hneeded hrest hc
  refine ⟨p.json + 1 + letters.length, c.append value, value.val, hat.append, hrec', hvals, hparsed,
    ?_⟩
  rw [hcall p hderef, hliteral]

theorem reads_container {Q : QCborContainerPrivate → Prop} {first : UInt8} {type : CborType}
    {inner : Parser → Exec (Bool × Parser)} (hinner : Fills text Q n inner t)
    (htype : type = .array ∨ type = .map)
    (hparsed : ∀ v (d : QCborContainerPrivate), v.Contains type d.vals → Q d → P v j)
    (hcall : ∀ p : Parser, deref text p.json = .ok first → call p = Parser.stashed { p with json := p.json + 1 } type inner) :
    Reads text P n call (first :: t) j := by
  intro p c rest h _ hc hrec hn
  have ⟨hderef, hat⟩ := h.cons
  have ⟨json, c', v, d, hjson, hrec', hvals, hcontains, hQ, hstashed⟩ := stashed_ok hinner
    (p := { p with json := p.json + 1 }) htype hat hc hrec hn
  refine ⟨json, c', v, hjson, hrec', hvals, hparsed v d hcontains hQ, ?_⟩
  rw [hcall p hderef, hstashed]

theorem parseValue_step {decimal : Decimal} (hdecimal : decimal.ReadsIntegers)
    {stableSort : Parser.StableSort} (hkeeps : Keeps stableSort keeps stray) {depth : ℕ}
    (hvalue : ∀ m, m + 1 = n → ∀ t j, ValueText decimal m t j → Reads text (Parsed keeps stray) m (Parser.parseValue text decimal stableSort depth) t j)
    (ht : ValueText decimal n t j) : Reads text (Parsed keeps stray) n
      (Parser.parseValue text decimal stableSort (depth + 1)) t j := by
  have harray : ∀ m t js, m + 1 = n → (js = [] ∧ Ws t) ∨ ElementsText decimal m t js →
      Reads text (Parsed keeps stray) n (Parser.parseValue text decimal stableSort (depth + 1))
        (BeginArray :: (t ++ [EndArray])) (.array js) := by
    intro m t js hm ht
    rw [← hm]
    apply reads_container (parseArray_ok (hvalue m hm) ht) (.inl rfl)
    · intro v d hcontains hQ
      exact .array hcontains (parsedElements_of_forall₂ hQ.2)
    · intro p hderef
      rw [Parser.parseValue, hderef, ok_bind]
      rfl
  have hobject : ∀ m t ms, m + 1 = n → (ms = [] ∧ Ws t) ∨ MembersText decimal m t ms →
      Reads text (Parsed keeps stray) n (Parser.parseValue text decimal stableSort (depth + 1))
        (BeginObject :: (t ++ [EndObject])) (.object ms) := by
    intro m t ms hm ht
    rw [← hm]
    apply reads_container (parseObject_ok hkeeps (hvalue m hm) ht) (.inr rfl)
    · intro v d hcontains hQ
      rcases hQ with hstray | ⟨_, kept, hkept, hvs⟩
      · exact .stray hstray
      · exact .object hcontains hkept (parsedMembers_of_stored hvs)
    · intro p hderef
      rw [Parser.parseValue, hderef, ok_bind]
      rfl
  cases ht with
  | null =>
    have hrefers : (QCborValue.value .null 0).Refers := trivial
    apply reads_literal hrefers .null (Nat.le_refl 4)
    intro p hderef
    rw [Parser.parseValue, hderef, ok_bind]
    rfl
  | true =>
    have hrefers : (QCborValue.value .isTrue 0).Refers := trivial
    apply reads_literal hrefers .true (Nat.le_refl 4)
    intro p hderef
    rw [Parser.parseValue, hderef, ok_bind]
    rfl
  | false =>
    have hrefers : (QCborValue.value .isFalse 0).Refers := trivial
    apply reads_literal hrefers .false (Nat.le_refl 5)
    intro p hderef
    rw [Parser.parseValue, hderef, ok_bind]
    rfl
  | number ht hj =>
    intro p c rest h hfollows hc hrec _
    have ⟨v, hnumber, hcall⟩ := parseNumber_ok hdecimal ht hj h.le h.drop hfollows hc
    have hnumber' : v.Refers ∧ Parsed keeps stray v.val j := IsNumber.parsed hnumber
    have ⟨hrefers, hparsed⟩ := hnumber'
    have ⟨hvals, hrec'⟩ := append_spec hrec hrefers
    have ⟨first, r, hhead, hfirst⟩ := NumberText.head ht
    have ⟨_, htoken, hn, ht', hf⟩ := head_of_number first hfirst
    unfold isToken at htoken
    simp only [Bool.or_eq_false_iff] at htoken
    have h' := h
    rw [hhead] at h'
    have ⟨hderef, _⟩ := h'.cons
    refine ⟨_, c.append v, v.val, h.append, hrec', hvals, hparsed, ?_⟩
    rw [Parser.parseValue, hderef, ok_bind]
    simp only [beq_eq_false_iff_ne.mpr hn, beq_eq_false_iff_ne.mpr ht', beq_eq_false_iff_ne.mpr hf,
      htoken, Bool.false_eq_true, if_false, Bool.or_self]
    exact hcall
  | string ht =>
    intro p c rest h hfollows hc hrec _
    have hrest : rest ≠ [] := by
      cases hfollows with
      | mk _ => exact cons_ne_nil _ _
    have ⟨t', ht'⟩ := StringText.head ht
    rw [ht'] at h ht
    have ⟨hderef, hat⟩ := h.cons
    have ⟨c', hrec', hvals, hcall⟩ := parseString_ok (p := { p with json := p.json + 1 }) ht hat.le
      hat.drop hrest hc hrec
    refine ⟨_, c', _, hat.append, hrec', hvals, .string _, ?_⟩
    rw [Parser.parseValue, hderef, ok_bind]
    exact hcall
  | @emptyArray m w hw => exact harray m w [] rfl (.inl ⟨rfl, hw⟩)
  | @array m t js ht => exact harray m t js rfl (.inr ht)
  | @emptyObject m w hw => exact hobject m w [] rfl (.inl ⟨rfl, hw⟩)
  | @object m t ms ht => exact hobject m t ms rfl (.inr ht)

theorem parseValue_ok {decimal : Decimal} (hdecimal : decimal.ReadsIntegers)
    {stableSort : Parser.StableSort} (hkeeps : Keeps stableSort keeps stray) {n depth : ℕ}
    (hdepth : n < depth) (ht : ValueText decimal n t j) :
    Reads text (Parsed keeps stray) n (Parser.parseValue text decimal stableSort depth) t j := by
  induction n generalizing depth t j with
  | zero =>
    cases depth with
    | zero => omega
    | succ depth => exact parseValue_step hdecimal hkeeps (fun m hm => by omega) ht
  | succ n ih =>
    cases depth with
    | zero => omega
    | succ depth =>
      apply parseValue_step hdecimal hkeeps _ ht
      intro m hm t j ht
      have hmn : m = n := by omega
      rw [hmn] at ht ⊢
      exact ih (by omega) ht

/-! ## Documents -/

theorem eatBOM_ok {rest : List UInt8} (h : At text p.json (c :: rest))
    (hc : c ≠ 0xef) : p.eatBOM text = .ok p := by
  unfold Parser.eatBOM
  by_cases hlong : text.length - p.json > 3
  · rw [if_pos hlong]
    rw [QUtf8.utf8bom, Parser.matchLetters, h.cons.1, ok_bind, if_neg (by rwa [beq_iff_eq])]
    rfl
  · simp [hlong]

theorem isSpace_bom : ∀ c : UInt8, isSpace c = true → c ≠ 0xef := uint8_all (by decide +kernel)

/-- `parse` returns an array or an object, without an error. -/
def Succeeds (type : CborType) (Q : QCborContainerPrivate → Prop)
    (x : Exec (QCborValue × QJsonParseError)) : Prop :=
  ∃ container, x = .ok (makeValue type container, ⟨0, .noError⟩) ∧ Q (container.getD .empty)

theorem finish_ok {w : List UInt8} (type : CborType) (h : At text p.json w) (hw : Ws w) :
    parse.finish text type (true, p) = .ok (makeValue type p.container, ⟨0, .noError⟩) := by
  have hdrop : text.drop p.json = w ++ [] := by
    rw [h.drop, append_nil]
  have hlen := h.length
  have hpast := past_append hdrop hw fun c r heq => by cases heq
  unfold parse.finish
  simp only
  rw [eatSpace_ok h.le, hpast, decide_eq_false (by omega)]
  rfl

theorem parse_container {decimal : Decimal} {stableSort : Parser.StableSort} {first : UInt8}
    {w : List UInt8} {Q : QCborContainerPrivate → Prop} {type : CborType}
    (h : At text 0 (w ++ (first :: t ++ w'))) (hw : Ws w) (hw' : Ws w')
    (hcall : Fills text Q nestingLimit call t)
    (hfirst : first = BeginArray ∧ type = .array ∧ call = (fun p => p.parseArray text (Parser.parseValue text decimal stableSort nestingLimit)) ∨ first = BeginObject ∧ type = .map ∧ call = (fun p => p.parseObject text (Parser.parseValue text decimal stableSort nestingLimit) stableSort)) :
    Succeeds type Q (parse text decimal stableSort nestingLimit) := by
  have hspace : isSpace first = false ∧ first ≠ 0xef ∧ tokenOf first = first := by
    rcases hfirst with ⟨hfirst, _⟩ | ⟨hfirst, _⟩
    · rw [hfirst]
      decide
    · rw [hfirst]
      decide
  have hbom : Parser.eatBOM text ⟨0, 0, .noError, none⟩ = .ok ⟨0, 0, .noError, none⟩ := by
    cases w with
    | nil => exact eatBOM_ok (p := ⟨0, 0, .noError, none⟩) h hspace.2.1
    | cons c w =>
      exact eatBOM_ok (p := ⟨0, 0, .noError, none⟩) h (isSpace_bom c (hw c mem_cons_self))
  have ⟨hat, htok⟩ := nextToken_at (p := ⟨0, 0, .noError, none⟩) h hw hspace.1
  rw [hspace.2.2] at htok
  have ⟨json, container, hjson, hQ, hres⟩ := hcall ⟨0 + w.length + 1, 0, .noError, some .empty⟩ w'
    hat (.inr rfl) (by show 0 + nestingLimit ≤ _; omega)
  refine ⟨container, ?_, hQ⟩
  have hfinish := finish_ok (p := ⟨json, 0, .noError, container⟩) type hjson hw'
  unfold parse
  rw [hbom, ok_bind, htok, ok_bind]
  simp only
  rcases hfirst with ⟨hfirst, htype, hcall⟩ | ⟨hfirst, htype, hcall⟩
  · rw [if_pos (by rw [hfirst]; rfl)]
    rw [hcall] at hres
    simp only at hres
    rw [hres, ok_bind, ← htype]
    exact hfinish
  · rw [if_neg (by rw [hfirst]; decide), if_pos (by rw [hfirst]; rfl)]
    rw [hcall] at hres
    simp only at hres
    rw [hres, ok_bind, ← htype]
    exact hfinish

theorem ofNumber_scalar {decimal : Decimal}
    (h : ofNumber decimal t = some j) : (∀ js, j ≠ .array js) ∧ ∀ ms, j ≠ .object ms := by
  have ⟨v, _, hnumber⟩ := numberValue_ok (fun h : true = false => by cases h) h
  cases hnumber with
  | number n => exact ⟨fun _ => nofun, fun _ => nofun⟩
  | double bits => exact ⟨fun _ => nofun, fun _ => nofun⟩

theorem ValueText.array_inv {decimal : Decimal}
    (h : ValueText decimal n t (.array js)) : ∃ m t', m + 1 = n ∧
      t = BeginArray :: (t' ++ [EndArray]) ∧ ((js = [] ∧ Ws t') ∨ ElementsText decimal m t' js) := by
  cases h with
  | number _ hj => exact absurd rfl ((ofNumber_scalar hj).1 js)
  | emptyArray hw => exact ⟨_, _, rfl, rfl, .inl ⟨rfl, hw⟩⟩
  | array ht => exact ⟨_, _, rfl, rfl, .inr ht⟩

theorem ValueText.object_inv {decimal : Decimal}
    (h : ValueText decimal n t (.object ms)) : ∃ m t', m + 1 = n ∧
      t = BeginObject :: (t' ++ [EndObject]) ∧ ((ms = [] ∧ Ws t') ∨ MembersText decimal m t' ms) := by
  cases h with
  | number _ hj => exact absurd rfl ((ofNumber_scalar hj).2 ms)
  | emptyObject hw => exact ⟨_, _, rfl, rfl, .inl ⟨rfl, hw⟩⟩
  | object ht => exact ⟨_, _, rfl, rfl, .inr ht⟩

section

variable {decimal : Decimal} {stableSort : Parser.StableSort}

theorem parse_array_ok (hdecimal : decimal.ReadsIntegers) (hkeeps : Keeps stableSort keeps stray)
    (h : DocumentText decimal text (.array js)) :
    Succeeds .array (fun c => c.HasRecords ∧ List.Forall₂ (Parsed keeps stray) c.vals js)
      (parse text decimal stableSort nestingLimit) := by
  cases h with
  | @array w t w' js hw ht hw' =>
    have ⟨m, t', hm, heq, ht'⟩ := ValueText.array_inv ht
    rw [heq]
    have hfills (text : List UInt8) := parseArray_ok (fun t j (ht : ValueText decimal m t j) =>
      show Reads text _ m _ t j from
        parseValue_ok hdecimal hkeeps (show m < nestingLimit by omega) ht) ht'
    rw [hm] at hfills
    exact parse_container ⟨Nat.zero_le _, rfl⟩ hw hw' (hfills _) (.inl ⟨rfl, rfl, rfl⟩)

theorem parse_object_ok (hdecimal : decimal.ReadsIntegers) (hkeeps : Keeps stableSort keeps stray)
    (h : DocumentText decimal text (.object ms)) :
    Succeeds .map (fun c => stray ms ∨ c.HasRecords ∧
        ∃ kept, keeps ms kept ∧ StoredMembers (Parsed keeps stray) c.vals kept)
      (parse text decimal stableSort nestingLimit) := by
  cases h with
  | @object w t w' ms hw ht hw' =>
    have ⟨m, t', hm, heq, ht'⟩ := ValueText.object_inv ht
    rw [heq]
    have hfills (text : List UInt8) := parseObject_ok hkeeps (fun t j (ht : ValueText decimal m t j) =>
      show Reads text _ m _ t j from
        parseValue_ok hdecimal hkeeps (show m < nestingLimit by omega) ht) ht'
    rw [hm] at hfills
    exact parse_container ⟨Nat.zero_le _, rfl⟩ hw hw' (hfills _) (.inr ⟨rfl, rfl, rfl⟩)

theorem parse_ok (hdecimal : decimal.ReadsIntegers) (hkeeps : Keeps stableSort keeps stray)
    (h : DocumentText decimal text j) : ∃ v, parse text decimal stableSort nestingLimit =
      .ok (v, ⟨0, .noError⟩) ∧ Parsed keeps stray v.val j := by
  cases j with
  | array js =>
    have ⟨container, heq, hQ⟩ := parse_array_ok hdecimal hkeeps h
    have hcontains := (contains_makeValue .array (.inl rfl) container).2
    exact ⟨_, heq, .array hcontains (parsedElements_of_forall₂ hQ.2)⟩
  | object ms =>
    have ⟨container, heq, hQ⟩ := parse_object_ok hdecimal hkeeps h
    have hcontains := (contains_makeValue .map (.inr rfl) container).2
    rcases hQ with hstray | ⟨_, kept, hkept, hvs⟩
    · exact ⟨_, heq, .stray hstray⟩
    · exact ⟨_, heq, .object hcontains hkept (parsedMembers_of_stored hvs)⟩
  | null => nomatch h
  | bool b => nomatch h
  | number n => nomatch h
  | double bits => nomatch h
  | string s => nomatch h

end

end JsonParser

end QtBase
