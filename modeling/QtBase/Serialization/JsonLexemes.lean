import QtBase.Serialization.JsonScan
import QtBase.Serialization.JsonGrammar

/-! The parser reads the numbers and the strings of the grammar. -/
namespace QtBase

open List Bool

namespace JsonParser

open Json Unicode QUtf8Functions QCborContainerPrivate

variable {text : List UInt8}

/-! ## Loops over characters -/

/-- A text that does not begin with such a character. -/
def Stops (p : UInt8 → Bool) (rest : List UInt8) : Prop := ∀ c r, rest = c :: r → p c = false

variable {json : ℕ} {p : UInt8 → Bool} {rest : List UInt8}

theorem past_append {w : List UInt8} (h : text.drop json = w ++ rest) (hw : ∀ c ∈ w, p c = true)
    (hrest : Stops p rest) :
    past text p json = json + w.length := by
  have htake : (w ++ rest).takeWhile p = w := by
    rw [takeWhile_append_of_pos hw]
    cases rest with
    | nil => rw [takeWhile_nil, append_nil]
    | cons c r =>
      have hc : ¬ p c = true := by
        rw [hrest c r rfl]
        exact false_ne_true
      rw [takeWhile_cons_of_neg hc, append_nil]
  unfold past
  rw [h, htake]

theorem skipWhile_append {w : List UInt8} (hle : json ≤ text.length)
    (h : text.drop json = w ++ rest) (hw : ∀ c ∈ w, p c = true) (hrest : Stops p rest) :
    skipWhile text p (text.length + 1) json = .ok (json + w.length) := by
  rw [skipWhile_ok p (text.length + 1) hle (by omega), past_append h hw hrest]

/-- What follows a value: whitespace or one of `,`, `]` and `}`. -/
inductive Follows : List UInt8 → Prop
  | mk {c : UInt8} {rest : List UInt8} : (isSpace c = true ∨ c = ValueSeparator ∨ c = EndArray ∨
      c = EndObject) → Follows (c :: rest)

/-- None of these goes on with a number. -/
def isNumeric (c : UInt8) : Bool :=
  isAsciiDigit c || c == 0x2e || c == 0x65 || c == 0x45 || c == 0x2d || c == 0x2b

theorem isNumeric_of_isSpace : ∀ c : UInt8, isSpace c = true → isNumeric c = false :=
  uint8_all (by decide +kernel)

theorem Follows.stops (h : Follows rest) : Stops isNumeric rest := by
  cases h with
  | mk hc =>
    intro c' r heq
    rw [List.cons.injEq] at heq
    rw [← heq.1]
    rcases hc with hc | hc | hc | hc
    · exact isNumeric_of_isSpace _ hc
    · rw [hc]
      rfl
    · rw [hc]
      rfl
    · rw [hc]
      rfl

theorem Stops.mono {q : UInt8 → Bool} (h : Stops q rest)
    (hpq : ∀ c, p c = true → q c = true) : Stops p rest := by
  intro c r heq
  have hq := h c r heq
  by_contra hp
  rw [not_eq_false] at hp
  rw [hpq c hp] at hq
  cases hq

theorem Stops.append {p : UInt8 → Bool} {w rest : List UInt8} (hw : Stops p w)
    (hrest : w = [] → Stops p rest) : Stops p (w ++ rest) := by
  cases w with
  | nil => exact hrest rfl
  | cons a w =>
    intro c r heq
    rw [cons_append, List.cons.injEq] at heq
    exact hw c w (by rw [← heq.1])

theorem stops_cons {c : UInt8} (h : p c = false) :
    Stops p (c :: rest) := by
  intro c' r heq
  rw [List.cons.injEq] at heq
  rw [← heq.1]
  exact h

/-! ## Numbers -/

theorem skipOne_true {c : UInt8 → Bool} {b : UInt8} (h : text.drop json = b :: rest)
    (hb : c b = true) :
    Parser.skipOne text c json = .ok (true, json + 1) := by
  have ⟨hderef, hlt, _⟩ := deref_of_drop h
  unfold Parser.skipOne Parser.looksAt
  rw [if_pos hlt, hderef, ok_bind, pure_eq_ok, ok_bind, hb]
  rfl

theorem skipOne_false {c : UInt8 → Bool} (h : Stops c (text.drop json)) :
    Parser.skipOne text c json = .ok (false, json) := by
  unfold Parser.skipOne Parser.looksAt
  by_cases hlt : json < text.length
  · rw [if_pos hlt, deref_of_lt hlt, ok_bind, pure_eq_ok, ok_bind,
      h _ _ (drop_of_lt hlt)]
    rfl
  · simp [hlt]

variable {t : List UInt8}

theorem skipInt_ok (ht : IntText t) (hle : json ≤ text.length) (h : text.drop json = t ++ rest)
    (hrest : Stops isAsciiDigit rest) :
    Parser.skipInt text json = .ok (json + t.length) := by
  unfold Parser.skipInt
  cases ht with
  | zero =>
    rw [skipOne_true h rfl]
    rfl
  | digits hc hne hd =>
    rename_i c d
    have hstop : Stops (· == 0x30) (text.drop json) := by
      rw [h]
      apply stops_cons
      rw [beq_eq_false_iff_ne]
      exact hne
    rw [skipOne_false hstop]
    apply skipWhile_append hle h _ hrest
    intro x hx
    rw [mem_cons] at hx
    rcases hx with hx | hx
    · rw [hx]
      exact hc
    · exact hd x hx

theorem skipFrac_ok (ht : FracText t) (h : text.drop json = t ++ rest)
    (hrest : Stops isAsciiDigit rest)
    (hpoint : Stops (· == 0x2e) rest) : ∃ zeros, Parser.skipFrac text json =
      .ok (zeros, json + t.length) ∧ (zeros = false → 0x2e ∈ t) := by
  unfold Parser.skipFrac
  cases ht with
  | none =>
    rw [nil_append] at h
    rw [← h] at hpoint
    rw [skipOne_false hpoint]
    exact ⟨true, rfl, fun h => by cases h⟩
  | some hne hd =>
    rename_i d
    have ⟨_, hlt, hdrop⟩ := deref_of_drop (h.trans cons_append)
    rw [skipOne_true h rfl]
    have hskip := skipWhile_append hlt hdrop hd hrest
    show ∃ zeros, (do
      let json' ← skipWhile text isAsciiDigit (text.length + 1) (json + 1)
      pure (((text.drop (json + 1)).take (json' - (json + 1))).all (· == 0x30), json')) = _ ∧ _
    rw [hskip, length_cons, Nat.add_comm d.length 1, ← Nat.add_assoc]
    exact ⟨_, rfl, fun _ => mem_cons_self⟩

theorem sign_of_isAsciiDigit : ∀ c : UInt8, isAsciiDigit c = true →
    (c == 0x2d || c == 0x2b) = false := uint8_all (by decide +kernel)

theorem skipSign_ok {sign d : List UInt8} (hsign : SignText sign) (hne : d ≠ []) (hd : Digits d)
    (h : text.drop json = sign ++ (d ++ rest)) : ∃ found,
    Parser.skipOne text (fun c => c == 0x2d || c == 0x2b) json = .ok (found, json + sign.length) := by
  cases hsign with
  | none =>
    refine ⟨false, skipOne_false ?_⟩
    rw [h, nil_append]
    cases d with
    | nil => exact absurd rfl hne
    | cons c d =>
      apply stops_cons
      exact sign_of_isAsciiDigit c (hd c mem_cons_self)
  | minus => exact ⟨true, skipOne_true h rfl⟩
  | plus => exact ⟨true, skipOne_true h rfl⟩

theorem skipExp_ok (ht : ExpText t) (h : text.drop json = t ++ rest)
    (hrest : Stops isNumeric rest) : ∃ e, Parser.skipExp text json =
      .ok (e, json + t.length) ∧ (e = true → 0x65 ∈ t ∨ 0x45 ∈ t) := by
  unfold Parser.skipExp
  cases ht with
  | none =>
    have hstop : Stops (fun c => c == 0x65 || c == 0x45) (text.drop json) := by
      rw [h]
      apply hrest.mono
      intro c hc
      unfold isNumeric
      rw [or_eq_true] at hc
      rcases hc with hc | hc
      · simp [hc]
      · simp [hc]
    rw [skipOne_false hstop]
    exact ⟨false, rfl, fun h => by cases h⟩
  | some he hsign hne hd =>
    rename_i e sign d
    have hdigits : Stops isAsciiDigit rest := by
      apply hrest.mono
      intro c hc
      unfold isNumeric
      rw [hc]
      rfl
    have hmem : 0x65 ∈ e :: (sign ++ d) ∨ 0x45 ∈ e :: (sign ++ d) := by
      rcases he with he | he
      · rw [he]
        exact .inl mem_cons_self
      · rw [he]
        exact .inr mem_cons_self
    have hletter : (e == 0x65 || e == 0x45) = true := by
      rcases he with he | he
      · rw [he]
        rfl
      · rw [he]
        rfl
    obtain ⟨_, hlt, hdrop⟩ := deref_of_drop (h.trans cons_append)
    rw [append_assoc] at hdrop
    obtain ⟨found, hfound⟩ := skipSign_ok hsign hne hd hdrop
    have hdrop' := drop_append hdrop
    have hle := length_of_drop hlt hdrop
    have hlen : json + (e :: (sign ++ d)).length = json + 1 + sign.length + d.length := by
      simp
      omega
    rw [skipOne_true h hletter]
    refine ⟨true, ?_, fun _ => hmem⟩
    rw [ok_bind]
    dsimp only
    rw [Bool.not_true, if_neg Bool.false_ne_true, hfound, ok_bind, hlen]
    dsimp only
    rw [skipWhile_append (by omega) hdrop' hd hdigits]
    rfl

/-- The conversion to integers leaves everything with a point or an exponent alone. -/
def Decimal.ReadsIntegers (decimal : Decimal) : Prop :=
  ∀ t, 0x2e ∈ t ∨ 0x65 ∈ t ∨ 0x45 ∈ t → decimal.toLongLong t = none

/-- The number that a text stands for, as a value. -/
inductive IsNumber : QCborValue → Json → Prop
  | number (n : Int64) : IsNumber (.value .integer n) (.number n)
  | double (bits : Int64) : IsNumber (.value .double bits) (.double bits)

theorem numberValue_ok {decimal : Decimal} {isInt : Bool} {j : Json}
    (hint : isInt = false → decimal.toLongLong t = none) (h : ofNumber decimal t = some j) :
    ∃ v, Parser.numberValue decimal isInt t = some v ∧ IsNumber v j := by
  have hlong : (if isInt then decimal.toLongLong t else none) = decimal.toLongLong t := by
    cases isInt with
    | true => rfl
    | false => exact (hint rfl).symm
  unfold Parser.numberValue
  unfold ofNumber at h
  rw [hlong]
  cases hl : decimal.toLongLong t with
  | some n =>
    rw [hl, Option.some.injEq] at h
    rw [← h]
    exact ⟨_, rfl, .number n⟩
  | none =>
    rw [hl] at h
    simp only at h ⊢
    cases hd : decimal.toDouble t with
    | none =>
      rw [hd] at h
      cases h
    | some d =>
      rw [hd, Option.map_some, Option.some.injEq] at h
      simp only
      cases hc : decimal.convertDoubleTo d with
      | some n =>
        rw [hc] at h
        rw [← h]
        exact ⟨_, rfl, .number n⟩
      | none =>
        rw [hc] at h
        rw [← h]
        exact ⟨_, rfl, .double _⟩

theorem Parser.append_ok {p : Parser} {c : QCborContainerPrivate} (hc : p.container = some c)
    (v : QCborValue) : p.append v = .ok { p with container := some (c.append v) } := by
  unfold Parser.append
  rw [hc]

theorem parseNumber_ok {decimal : Decimal} (hdecimal : decimal.ReadsIntegers) {p : Parser}
    {c : QCborContainerPrivate} {j : Json} (ht : NumberText t) (hj : ofNumber decimal t = some j)
    (hle : p.json ≤ text.length) (h : text.drop p.json = t ++ rest) (hrest : Follows rest)
    (hc : p.container = some c) :
    ∃ v, IsNumber v j ∧ p.parseNumber text decimal = .ok (true, { p with
      json := p.json + t.length
      container := some (c.append v) }) := by
  have hlen := length_of_drop hle h
  have htake : (text.drop p.json).take (p.json + t.length - p.json) = t := by
    rw [h, Nat.add_sub_cancel_left, take_left]
  have hstops := hrest.stops
  have hdigit : ∀ c, isAsciiDigit c = true → isNumeric c = true := by
    intro c hc
    unfold isNumeric
    rw [hc]
    rfl
  have hpoint : ∀ c : UInt8, (c == 0x2e) = true → isNumeric c = true := by
    intro c hc
    unfold isNumeric
    rw [hc]
    simp
  cases ht with
  | mk hminus hint hfrac hexp =>
    rename_i minus int frac exp
    have hmem : ∀ c : UInt8, c ∈ frac ∨ c ∈ exp → c ∈ minus ++ (int ++ (frac ++ exp)) := by
      intro c hc
      rw [mem_append, mem_append, mem_append]
      rcases hc with hc | hc
      · exact .inr (.inr (.inl hc))
      · exact .inr (.inr (.inr hc))
    have hdrop₀ : text.drop p.json = minus ++ (int ++ (frac ++ (exp ++ rest))) := by
      simp [h]
    have hdrop₁ := drop_append hdrop₀
    have hdrop₂ := drop_append hdrop₁
    have hdrop₃ := drop_append hdrop₂
    have hle₁ := length_of_drop hle hdrop₀
    have hle₂ := length_of_drop (by omega) hdrop₁
    have hexpStops : ∀ q : UInt8 → Bool, (∀ c, q c = true → isNumeric c = true) →
        (q 0x65 = false ∧ q 0x45 = false) → Stops q (exp ++ rest) := by
      intro q hq hqe
      apply Stops.append
      · cases hexp with
        | none =>
          intro c r heq
          cases heq
        | some he hsign hne hd =>
          apply stops_cons
          rcases he with he | he
          · rw [he]
            exact hqe.1
          · rw [he]
            exact hqe.2
      · intro _
        exact hstops.mono hq
    have hfracStops : Stops isAsciiDigit (frac ++ (exp ++ rest)) := by
      apply Stops.append
      · cases hfrac with
        | none =>
          intro c r heq
          cases heq
        | some hne hd => exact stops_cons rfl
      · intro _
        exact hexpStops _ hdigit ⟨rfl, rfl⟩
    have hskipMinus : ∃ found, Parser.skipOne text (· == 0x2d) p.json =
        .ok (found, p.json + minus.length) := by
      rcases hminus with hminus | hminus
      · refine ⟨false, ?_⟩
        rw [hminus]
        apply skipOne_false
        rw [hdrop₀, hminus, nil_append]
        cases hint with
        | zero => exact stops_cons rfl
        | digits hx hne hd =>
          apply stops_cons
          have hsign := sign_of_isAsciiDigit _ hx
          rw [or_eq_false_iff] at hsign
          exact hsign.1
      · refine ⟨true, ?_⟩
        rw [hminus] at hdrop₀ ⊢
        exact skipOne_true hdrop₀ rfl
    have ⟨found, hfound⟩ := hskipMinus
    have hskipInt := skipInt_ok hint (by omega) hdrop₁ hfracStops
    have ⟨zeros, hzeros, hzero⟩ := skipFrac_ok hfrac hdrop₂
      (hexpStops _ hdigit ⟨rfl, rfl⟩) (hexpStops _ hpoint ⟨rfl, rfl⟩)
    have ⟨e, he, hexpo⟩ := skipExp_ok hexp hdrop₃ hstops
    have hisInt : (zeros && !e) = false →
        decimal.toLongLong (minus ++ (int ++ (frac ++ exp))) = none := by
      intro hand
      apply hdecimal
      rw [and_eq_false_iff, not_eq_false'] at hand
      rcases hand with hand | hand
      · exact .inl (hmem _ (.inl (hzero hand)))
      · exact .inr ((hexpo hand).imp (fun h => hmem _ (.inr h)) fun h => hmem _ (.inr h))
    have ⟨v, hv, hnumber⟩ := numberValue_ok hisInt hj
    have hpos : p.json + minus.length + int.length + frac.length + exp.length =
        p.json + (minus ++ (int ++ (frac ++ exp))).length := by
      simp
      omega
    have hmore : ¬ text.length ≤ p.json + (minus ++ (int ++ (frac ++ exp))).length := by
      cases hrest with
      | mk hx =>
        rw [length_cons] at hlen
        omega
    refine ⟨v, hnumber, ?_⟩
    unfold Parser.parseNumber
    simp only
    rw [hfound, ok_bind]
    simp only
    rw [hskipInt, ok_bind]
    rw [hzeros, ok_bind]
    simp only
    rw [he, ok_bind]
    simp only
    rw [hpos, if_neg hmore, htake, hv]
    simp only
    have happend := Parser.append_ok (c := c)
      (p := { p with json := p.json + (minus ++ (int ++ (frac ++ exp))).length }) hc v
    rw [happend]
    rfl

end JsonParser

end QtBase
