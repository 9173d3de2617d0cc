import QtBase.Serialization.JsonLexemes

/-! The parser reads the strings of the grammar: what it stores is the UTF-8 of the text or, behind
an escape sequence, the UTF-16 it has decoded. -/
namespace QtBase

open JsonParser Unicode QCborContainerPrivate List UInt32 Parser

namespace Json

/-- What is stored for a string. -/
def Str.val : Str → Val
  | plain cs => .bytes .string false (cs.all fun c => !decide (c.val > 0x7f)) (utf8 cs)
  | escaped units => .bytes .string true false (utf16Bytes units)

theorem Str.isString_val (s : Str) : s.val.IsString s.units := by
  cases s with
  | plain cs =>
    apply Val.IsString.utf8
    intro hascii c hc
    rw [all_eq_true] at hascii
    have hle := hascii c hc
    rw [Bool.not_eq_true', decide_eq_false_iff_not, gt_iff_lt, lt_iff_toNat_lt] at hle
    have h7f : (0x7f : UInt32).toNat = 0x7f := rfl
    omega
  | escaped units => exact .utf16 units

end Json

namespace JsonParser

open Json

variable {text : List UInt8}

/-! ## Characters -/

theorem fromUcs4_val (c : Char) : fromUcs4 c.val = utf16EncodeChar c := by
  have hchecked := checked_char (n := 1) (m := 0) (c := c) (by
    rw [le_iff_toNat_le]
    exact Nat.zero_le _)
  unfold QUtf8Functions.checked at hchecked
  unfold fromUcs4
  by_cases hlt : c.val < 0
  · rw [if_pos hlt] at hchecked
    cases hchecked
  rw [if_neg hlt] at hchecked
  by_cases hbad : (QChar.isSurrogate c.val || decide (c.val > QChar.LastValidCodePoint)) = true
  · rw [if_pos hbad] at hchecked
    cases hchecked
  rw [if_neg hbad] at hchecked
  cases hreq : QChar.requiresSurrogates c.val with
  | true =>
    rw [hreq, if_neg (by decide), QUtf8Functions.FromUtf8.ok.injEq] at hchecked
    rw [if_pos rfl]
    exact hchecked.1
  | false =>
    rw [hreq, if_pos (by decide), QUtf8Functions.FromUtf8.ok.injEq] at hchecked
    rw [if_neg Bool.false_ne_true]
    exact hchecked.1

theorem fromUcs4_of_lt {ch : UInt32} (h : ch.toNat < 0x10000) :
    fromUcs4 ch = [.ofNat ch.toNat] := by
  have hreq : QChar.requiresSurrogates ch = false := by
    unfold QChar.requiresSurrogates
    rw [decide_eq_false_iff_not, ge_iff_le, le_iff_toNat_le]
    show ¬ 0x10000 ≤ ch.toNat
    omega
  unfold fromUcs4
  rw [hreq, if_neg Bool.false_ne_true]
  apply congrArg fun u => [u]
  apply UInt16.toNat_inj.mp
  rw [toNat_toUInt16, UInt16.toNat_ofNat']

theorem head_of_unescaped {c : Char} (h : Unescaped c) : ∃ b l, String.utf8EncodeChar c = b :: l ∧
    b ≠ Quote ∧ b ≠ Backslash := by
  obtain ⟨_, hquote, hbackslash⟩ := h
  rcases utf8EncodeChar_cases c with ⟨b, hc, hb, hv⟩ | ⟨b, x, hc, hb, _⟩ |
    ⟨b, x, y, hc, hb, _⟩ | ⟨b, x, y, z, hc, hb, _⟩
  all_goals
    refine ⟨b, _, hc, ?_, ?_⟩
    · intro heq
      rw [heq] at hb
      have hnat : Quote.toNat = 0x22 := rfl
      first
        | omega
        | (rw [hv, heq] at hquote; exact hquote rfl)
    · intro heq
      rw [heq] at hb
      have hnat : Backslash.toNat = 0x5c := rfl
      first
        | omega
        | (rw [hv, heq] at hbackslash; exact hbackslash rfl)

/-! ## Up to the first escape sequence -/

variable {json : ℕ} {rest : List UInt8}

theorem scanPlain_ok (fuel : ℕ) (isAscii : Bool) {cs : List Char} {stop : UInt8}
    (hcs : ∀ c ∈ cs, Unescaped c) (hstop : stop = Quote ∨ stop = Backslash)
    (h : text.drop json = utf8 cs ++ stop :: rest) (hfuel : text.length < fuel + json) :
    ∃ ascii, scanPlain text fuel json isAscii =
      .ok ⟨true, json + (utf8 cs).length, stop == Quote, ascii⟩ ∧
      (stop = Quote → ascii = (isAscii && cs.all fun c => !decide (c.val > 0x7f))) := by
  induction cs generalizing json isAscii fuel with
  | nil =>
    have ⟨hderef, hlt, _⟩ := deref_of_drop h
    cases fuel with
    | zero => omega
    | succ fuel =>
      unfold scanPlain
      rw [if_pos hlt, hderef, ok_bind]
      rcases hstop with hstop | hstop
      · rw [hstop, if_pos (by decide)]
        refine ⟨isAscii, rfl, fun _ => ?_⟩
        rw [all_nil, Bool.and_true]
      · rw [hstop, if_neg (by decide), if_pos (by decide)]
        exact ⟨false, rfl, fun h => absurd h (by decide)⟩
  | cons c cs ih =>
    have ⟨b, l, hc, hquote, hbackslash⟩ := head_of_unescaped (hcs c mem_cons_self)
    rw [utf8_cons, append_assoc] at h
    have hhead : text.drop json = b :: (l ++ (utf8 cs ++ stop :: rest)) := by
      rw [h, hc]
      rfl
    have ⟨hderef, hlt, _⟩ := deref_of_drop hhead
    have hpos : 0 < (String.utf8EncodeChar c).length := by
      simp [hc]
    cases fuel with
    | zero => omega
    | succ fuel =>
      have ⟨ascii, hscan, hascii⟩ := ih fuel (if c.val > 0x7f then false else isAscii)
        (fun x hx => hcs x (mem_cons_of_mem _ hx)) (drop_append h) (by omega)
      unfold scanPlain
      rw [if_pos hlt, hderef, ok_bind, if_neg (by rwa [beq_iff_eq]), if_neg (by rwa [beq_iff_eq]),
        scanUtf8Char_ok h, ok_bind]
      simp only
      rw [hscan, utf8_cons, length_append, Nat.add_assoc]
      refine ⟨ascii, rfl, ?_⟩
      intro heq
      rw [hascii heq, all_cons]
      by_cases hbig : c.val > 0x7f
      · simp [hbig]
      · simp [hbig]

/-! ## Escape sequences -/

theorem fromHex_of_hexDigit {c : UInt8} {n : ℕ} (h : hexDigit c = some n) :
    ∃ x, fromHex c = some x ∧ x.toNat = n ∧ n < 16 := by
  revert h
  have hall : ∀ c : UInt8, ∀ n, hexDigit c = some n →
      (fromHex c).map toNat = some n ∧ n < 16 := by
    apply uint8_all
    decide +kernel
  intro h
  have ⟨hmap, hlt⟩ := hall c n h
  rw [Option.map_eq_some_iff] at hmap
  have ⟨x, hx, hn⟩ := hmap
  exact ⟨x, hx, hn, hlt⟩

theorem toNat_addHexDigit {ch h : UInt32} (hch : ch.toNat < 2 ^ 12) (hh : h.toNat < 16) :
    (ch <<< 4 ||| h).toNat = ch.toNat * 16 + h.toNat := by
  have hor : 2 ^ 4 * ch.toNat + h.toNat = 2 ^ 4 * ch.toNat ||| h.toNat :=
    Nat.two_pow_add_eq_or_of_lt (by omega) _
  rw [UInt32.toNat_or, UInt32.toNat_shiftLeft]
  show (ch.toNat <<< 4) % 2 ^ 32 ||| h.toNat = _
  rw [Nat.shiftLeft_eq, Nat.mod_eq_of_lt (by omega), Nat.mul_comm, ← hor]

theorem addHexDigits_succ (n : ℕ) (ch : UInt32) {a : UInt8} {w : ℕ} (ha : hexDigit a = some w)
    (hch : ch.toNat < 2 ^ 12) (h : text.drop json = a :: rest) :
    ∃ ch' : UInt32, ch'.toNat = ch.toNat * 16 + w ∧ w < 16 ∧ text.drop (json + 1) = rest ∧
      addHexDigits text (n + 1) ch json = addHexDigits text n ch' (json + 1) := by
  have ⟨x, hx, hw, hlt⟩ := fromHex_of_hexDigit ha
  have ⟨hderef, _, hdrop⟩ := deref_of_drop h
  refine ⟨ch <<< 4 ||| x, ?_, hlt, hdrop, ?_⟩
  · rw [toNat_addHexDigit hch (by omega), hw]
  · rw [addHexDigits, hderef, ok_bind, hx]

theorem addHexDigits_ok {a b c d : UInt8} {w x y z : ℕ} (ha : hexDigit a = some w)
    (hb : hexDigit b = some x) (hc : hexDigit c = some y) (hd : hexDigit d = some z)
    (h : text.drop json = a :: b :: c :: d :: rest) :
    ∃ ch : UInt32, addHexDigits text 4 0 json = .ok (some ch, json + 4) ∧
      fromUcs4 ch = [.ofNat (((w * 16 + x) * 16 + y) * 16 + z)] := by
  have h0 : (0 : UInt32).toNat = 0 := rfl
  have ⟨ch₁, hch₁, hw, h₁, heq₁⟩ := addHexDigits_succ 3 0 ha (by omega) h
  have hlt₁ : ch₁.toNat < 2 ^ 12 := by omega
  have ⟨ch₂, hch₂, hx, h₂, heq₂⟩ := addHexDigits_succ 2 ch₁ hb hlt₁ h₁
  have hlt₂ : ch₂.toNat < 2 ^ 12 := by omega
  have ⟨ch₃, hch₃, hy, h₃, heq₃⟩ := addHexDigits_succ 1 ch₂ hc hlt₂ h₂
  have hlt₃ : ch₃.toNat < 2 ^ 12 := by omega
  have ⟨ch₄, hch₄, hz, _, heq₄⟩ := addHexDigits_succ 0 ch₃ hd hlt₃ h₃
  have hval : ch₄.toNat = ((w * 16 + x) * 16 + y) * 16 + z := by omega
  refine ⟨ch₄, ?_, ?_⟩
  · rw [heq₁, heq₂, heq₃, heq₄]
    rfl
  · rw [fromUcs4_of_lt (by omega), hval]

theorem unescape_of_mem {letter : UInt8} {u : UInt16} (h : (letter, u) ∈ escapes) :
    letter ≠ 0x75 ∧ fromUcs4 (unescape letter) = [u] := by
  unfold escapes at h
  simp only [mem_cons, Prod.mk.injEq, not_mem_nil, or_false] at h
  rcases h with h | h | h | h | h | h | h | h
  all_goals
    rw [h.1, h.2]
    decide

theorem scanEscapeSequence_of_drop {letter : UInt8}
    (h : text.drop json = Backslash :: letter :: rest) :
    scanEscapeSequence text json =
      if letter == 0x75 then
        if text.length < json + 1 + 1 + 4 then .ok (none, json + 1 + 1)
        else addHexDigits text 4 0 (json + 1 + 1)
      else .ok (some (unescape letter), json + 1 + 1) := by
  have ⟨_, _, hdrop⟩ := deref_of_drop h
  have ⟨hderef, hlt, _⟩ := deref_of_drop hdrop
  unfold scanEscapeSequence
  simp only
  rw [if_neg (by omega), hderef, ok_bind]
  rfl

variable {t : List UInt8}

theorem scanEscaped_char (fuel : ℕ) (ucs4 : List UInt16) {u : List UInt16} (ht : CharText t u)
    (h : text.drop json = t ++ rest) :
    0 < t.length ∧ scanEscaped text (fuel + 1) json ucs4 =
      scanEscaped text fuel (json + t.length) (ucs4 ++ u) := by
  rw [scanEscaped]
  cases ht with
  | unescaped hc =>
    rename_i c
    have ⟨b, l, henc, hquote, hbackslash⟩ := head_of_unescaped hc
    have hhead : text.drop json = b :: (l ++ rest) := by
      rw [h, henc]
      rfl
    have ⟨hderef, hlt, _⟩ := deref_of_drop hhead
    constructor
    · simp [henc]
    · rw [if_pos hlt, hderef, ok_bind, if_neg (by rwa [beq_iff_eq]), if_neg (by rwa [beq_iff_eq]),
        scanUtf8Char_ok h, ok_bind]
      simp only
      rw [fromUcs4_val]
  | escape hmem =>
    rename_i letter u
    have ⟨hu, hunescape⟩ := unescape_of_mem hmem
    have ⟨hderef, hlt, _⟩ := deref_of_drop h
    refine ⟨Nat.succ_pos _, ?_⟩
    rw [if_pos hlt, hderef, ok_bind, if_neg (by decide), if_pos (by decide),
      scanEscapeSequence_of_drop h, if_neg (by rwa [beq_iff_eq]), ok_bind]
    simp only
    rw [hunescape]
    rfl
  | unicode ha hb hc hd =>
    rename_i a b c d w x y z
    have ⟨hderef, hlt, hdrop⟩ := deref_of_drop h
    have ⟨_, _, hdrop'⟩ := deref_of_drop hdrop
    have ⟨ch, hch, hunits⟩ := addHexDigits_ok ha hb hc hd hdrop'
    have hlen := length_of_drop (Nat.le_of_lt hlt) h
    have hlen6 : [(0x5c : UInt8), 0x75, a, b, c, d].length = 6 := rfl
    refine ⟨Nat.succ_pos _, ?_⟩
    rw [if_pos hlt, hderef, ok_bind, if_neg (by decide), if_pos (by decide),
      scanEscapeSequence_of_drop h, if_pos (by decide), if_neg (by omega), hch, ok_bind]
    simp only
    rw [hunits]
    rfl

theorem scanEscaped_ok (fuel : ℕ) (ucs4 : List UInt16) {units : List UInt16}
    (ht : CharsText t units) (h : text.drop json = t ++ Quote :: rest)
    (hfuel : text.length < fuel + json) : scanEscaped text fuel json ucs4 =
      .ok (none, json + t.length, ucs4 ++ units) := by
  induction ht generalizing fuel json ucs4 with
  | nil =>
    have ⟨hderef, hlt, _⟩ := deref_of_drop h
    cases fuel with
    | zero => omega
    | succ fuel =>
      rw [scanEscaped, if_pos hlt, hderef, ok_bind, if_pos (by decide), append_nil]
      rfl
  | cons hchar hchars ih =>
    rename_i t t' u u'
    rw [append_assoc] at h
    have hlen : json < text.length := by
      by_contra hge
      rw [drop_eq_nil_of_le (Nat.not_lt.mp hge)] at h
      have hne := congrArg List.length h
      rw [length_append, length_append, length_cons, length_nil] at hne
      omega
    cases fuel with
    | zero => omega
    | succ fuel =>
      have ⟨hpos, hstep⟩ := scanEscaped_char fuel ucs4 hchar h
      rw [hstep, ih fuel _ (drop_append h) (by omega), length_append, Nat.add_assoc,
        append_assoc]

theorem backslash_not_mem {c : Char} (h : Unescaped c) :
    Backslash ∉ String.utf8EncodeChar c := by
  intro hmem
  have hb92 : Backslash.toNat = 0x5c := rfl
  obtain ⟨_, _, hne⟩ := h
  rcases utf8EncodeChar_cases c with ⟨b, henc, hb, hv⟩ | ⟨b, x, henc, hb, hx, _⟩ |
    ⟨b, x, y, henc, hb, hx, hy, _⟩ | ⟨b, x, y, z, henc, hb, hx, hy, hz, _⟩
  all_goals
    rw [henc] at hmem
    simp only [mem_cons, not_mem_nil, or_false, ← UInt8.toNat_inj] at hmem
    omega

theorem CharsText_split {units : List UInt16} (h : CharsText t units)
    (hmem : Backslash ∈ t) : ∃ cs t', (∀ c ∈ cs, Unescaped c) ∧ t = utf8 cs ++ Backslash :: t' := by
  induction h with
  | nil => cases hmem
  | cons hchar hchars ih =>
    rename_i t t' u u'
    cases hchar with
    | unescaped hc =>
      rename_i c
      by_cases hin : Backslash ∈ t'
      · have ⟨cs, t'', hcs, ht''⟩ := ih hin
        refine ⟨c :: cs, t'', ?_, ?_⟩
        · intro x hx
          rw [mem_cons] at hx
          rcases hx with hx | hx
          · simp [hx, hc]
          · exact hcs x hx
        · rw [utf8_cons, append_assoc, ht'']
      · rw [mem_append] at hmem
        rcases hmem with hmem | hmem
        · exact absurd hmem (backslash_not_mem hc)
        · exact absurd hmem hin
    | escape _ => exact ⟨[], _, fun _ hc => absurd hc not_mem_nil, rfl⟩
    | unicode _ _ _ _ => exact ⟨[], _, fun _ hc => absurd hc not_mem_nil, rfl⟩

/-! ## Strings -/

theorem parseString_ok {p : Parser} {c : QCborContainerPrivate} {s : Str}
    (ht : StringText (Quote :: t) s) (hle : p.json ≤ text.length) (h : text.drop p.json = t ++ rest)
    (hrest : rest ≠ []) (hc : p.container = some c)
    (hrec : c.HasRecords) : ∃ c', c'.HasRecords ∧ c'.vals = c.vals ++ [s.val] ∧
      p.parseString text = .ok (true, { p with
        json := p.json + t.length
        container := some c' }) := by
  have hlen := length_of_drop hle h
  have hpos : 0 < rest.length := length_pos_iff.mpr hrest
  unfold parseString
  simp only
  generalize hqt : Quote :: t = qt at ht
  cases ht with
  | plain hcs =>
    rename_i cs
    rw [List.cons.injEq] at hqt
    rw [hqt.2] at h hlen ⊢
    rw [append_assoc] at h
    have ⟨ascii, hscan, hascii⟩ := scanPlain_ok (text.length + 1) true hcs
      (.inl rfl) h (by omega)
    have hascii' := hascii rfl
    rw [Bool.true_and] at hascii'
    rw [length_append, length_singleton] at hlen ⊢
    have htake : (text.drop p.json).take (p.json + (utf8 cs).length + 1 - p.json - 1) = utf8 cs := by
      have hidx : p.json + (utf8 cs).length + 1 - p.json - 1 = (utf8 cs).length := by omega
      rw [h, hidx, take_left]
    rw [hscan, ok_bind]
    simp only [Bool.not_true, Bool.false_eq_true, if_false]
    rw [if_neg (by omega), if_neg (by decide), hc]
    simp only
    rw [htake, hascii']
    have hspec := appendByteData_spec hrec (utf8 cs) .string false
      (cs.all fun c => !decide (c.val > 0x7f))
    refine ⟨_, hspec.2, hspec.1, ?_⟩
    rw [Nat.add_assoc]
    cases cs.all fun c => !decide (c.val > 0x7f) with
    | true => rfl
    | false => rfl
  | escaped hchars hmem =>
    rename_i t' units
    rw [List.cons.injEq] at hqt
    rw [hqt.2] at h hlen ⊢
    rw [append_assoc] at h
    have ⟨cs, t'', hcs, hsplit⟩ := CharsText_split hchars hmem
    have hplain : text.drop p.json = utf8 cs ++ Backslash :: (t'' ++ ([Quote] ++ rest)) := by
      rw [h, hsplit, append_assoc, cons_append]
    have ⟨ascii, hscan, _⟩ := scanPlain_ok (text.length + 1) true hcs
      (.inr rfl) hplain (by omega)
    have hlen' := length_of_drop hle hplain
    rw [length_cons, length_append, length_append, length_singleton] at hlen'
    have hescaped := scanEscaped_ok (text.length + 1) [] hchars h (by omega)
    rw [length_append, length_singleton] at hlen ⊢
    rw [hscan, ok_bind]
    simp only [Bool.not_true, Bool.false_eq_true, if_false]
    rw [if_neg (by omega), if_pos (by decide)]
    unfold parseEscaped
    rw [hescaped, ok_bind]
    simp only
    rw [if_neg (by omega), hc, nil_append]
    have hspec := appendByteData_spec hrec (utf16Bytes units) .string true false
    refine ⟨_, hspec.2, hspec.1, ?_⟩
    simp
    omega

end JsonParser

end QtBase
