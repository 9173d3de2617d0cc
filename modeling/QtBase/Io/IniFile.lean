import QtBase.Io.IniLines
import QtBase.Io.IniValues

/-! `readIniFile` and `readIniSection`: the sections of an INI file, and the keys of a section. -/
namespace QtBase.Ini

open View QUtf8 QIPAddressUtils List Nat

inductive CaseSensitivity
  | CaseInsensitive
  | CaseSensitive
  deriving DecidableEq

/-- What the build and the rest of the library decide. -/
structure Platform (V : Type) where
  /-- `QT_QSETTINGS_ALWAYS_CASE_SENSITIVE_AND_FORGET_ORIGINAL_KEY_ORDER` -/
  alwaysCaseSensitive : Bool
  simd : Simd AsciiByte
  toLower : QString → QString
  isUpper : UInt16 → Bool
  toUShort : QString → Option UInt16
  stringToVariant : QString → V
  stringListToVariantList : List QString → V

/-- A `QSettingsKey`; the `QString` that it is comes first. -/
structure QSettingsKey where
  str : QString
  originalCaseKey : QString
  originalKeyPosition : ℤ
  deriving DecidableEq

variable {V : Type} (p : Platform V)

def IniCaseSensitivity : CaseSensitivity :=
  if p.alwaysCaseSensitive then .CaseSensitive else .CaseInsensitive

def mkSettingsKey (key : QString) (cs : CaseSensitivity) (position : ℤ) : Exec QSettingsKey :=
  if p.alwaysCaseSensitive then do
    qAssert (cs = .CaseSensitive)
    return ⟨key, key, -1⟩
  else return ⟨if cs = .CaseInsensitive then p.toLower key else key, key, position⟩

/-- A `QMap` by `QSettingsKey`, without its order. -/
abbrev SettingsMap (α : Type) := List (QSettingsKey × α)

namespace SettingsMap

variable {α : Type}

def find (m : SettingsMap α) (key : QSettingsKey) : Option α :=
  (List.find? (fun e => e.1.str == key.str) m).map (·.2)

/-- The key of an entry stays the one it was inserted with. -/
def insert (m : SettingsMap α) (key : QSettingsKey) (a : α) : SettingsMap α :=
  if m.any fun e => e.1.str == key.str then
    m.map fun e => if e.1.str == key.str then (e.1, a) else e
  else m ++ [(key, a)]

theorem mem_insert {m : SettingsMap α} {key : QSettingsKey} {a : α} {e : QSettingsKey × α}
    (h : e ∈ insert m key a) : e ∈ m ∨ e.2 = a := by
  unfold insert at h
  split at h
  · obtain ⟨e', he', rfl⟩ := mem_map.1 h
    split
    · exact .inr rfl
    · exact .inl he'
  · rcases mem_append.1 h with h | h
    · exact .inl h
    · rw [mem_singleton.1 h]
      exact .inr rfl

theorem find_mem {m : SettingsMap α} {key : QSettingsKey} {a : α} (h : find m key = some a) :
    ∃ e ∈ m, e.2 = a := by
  unfold find at h
  obtain ⟨e, he, rfl⟩ := Option.map_eq_some_iff.1 h
  exact ⟨e, mem_of_find?_eq_some he, rfl⟩

end SettingsMap

/-! ## Reading a file -/

structure FileScan where
  currentSection : QString := []
  currentSectionStart : ℕ := 0
  position : ℕ := 0
  sectionPosition : ℕ := 0
  ok : Bool := true
  unparsedIniSections : SettingsMap (List UInt8) := []

/-- `FLUSH_CURRENT_SECTION` -/
def flushCurrentSection (data : List UInt8) (lineStart : ℕ) (s : FileScan) : Exec FileScan := do
  let key ← mkSettingsKey p s.currentSection (IniCaseSensitivity p) s.sectionPosition
  let sectionData := (s.unparsedIniSections.find key).getD []
  let sectionData := if sectionData ≠ [] then sectionData ++ [0x0a] else sectionData
  let piece ← first data lineStart
  let piece ← slicedFrom piece s.currentSectionStart
  return { s with
    unparsedIniSections := s.unparsedIniSections.insert key (sectionData ++ piece)
    sectionPosition := s.position + 1
    position := s.position + 1 }

def trimmed (data : List UInt8) : List UInt8 :=
  (data.dropWhile ascii_isspace).reverse.dropWhile ascii_isspace |>.reverse

def toAsciiLower (c : UInt8) : UInt8 := if 0x41 ≤ c ∧ c ≤ 0x5a then c ||| 0x20 else c

/-- "general" -/
def general : List UInt8 := [0x67, 0x65, 0x6e, 0x65, 0x72, 0x61, 0x6c]

/-- The name of a section, from what stands in its brackets. -/
def sectionName (iniSection : List UInt8) : Exec QString :=
  if iniSection.map toAsciiLower = general then return []
  else if iniSection.map toAsciiLower = 0x25 :: general then
    return (iniSection.drop 1).map (·.toUInt16) ++ [0x2f]
  else do
    let (_, currentSection) ← iniUnescapedKey p.simd p.isUpper p.toUShort iniSection []
    return currentSection ++ [0x2f]

/-- `QByteArrayView::indexOf` -/
def indexOf (data : List UInt8) (c : UInt8) : ℤ :=
  match data.findIdx? (· == c) with
  | some idx => idx
  | none => -1

/-- A line that starts with `[`. -/
def sectionLine (data : List UInt8) (l : Line) (line : List UInt8) (s : FileScan) :
    Exec FileScan := do
  let s ← flushCurrentSection p data l.lineStart s
  let idx := indexOf line 0x5d
  qAssert (idx = -1 ∨ idx > 0)
  qAssert (idx < l.lineLen)
  let ok := if idx < 0 then false else s.ok
  let idx := if idx < 0 then l.lineLen else idx
  let iniSection ← slicedFrom (← first line idx) 1
  let currentSection ← sectionName p (trimmed iniSection)
  return { s with currentSection := currentSection, currentSectionStart := l.dataPos, ok := ok }

/-- The loop of `readIniFile`, from `dataPos` on; with it `lineStart` where it ends. -/
def readIniLines (data : List UInt8) : ℕ → ℕ → FileScan → Exec (ℕ × FileScan)
  | 0, _, _ => .error .diverge
  | rounds + 1, dataPos, s => do
    let (found, l) ← readIniLine data dataPos
    if found then
      let line ← sliced data l.lineStart l.lineLen
      let s ← if line.head? = some 0x5b then sectionLine p data l line s else pure s
      readIniLines data rounds l.dataPos { s with position := s.position + 1 }
    else return (l.lineStart, s)

/-- The text without its byte order mark. -/
def withoutBom (data : List UInt8) : List UInt8 :=
  if data.take 3 = utf8bom then data.drop 3 else data

def readIniFile (data : List UInt8) : Exec (Bool × SettingsMap (List UInt8)) := do
  let data := withoutBom data
  let (lineStart, s) ← readIniLines p data (data.length + 1) 0 {}
  qAssert (lineStart = data.length)
  let s ← flushCurrentSection p data lineStart s
  return (s.ok, s.unparsedIniSections)

/-! ## Reading a section -/

structure SectionScan (V : Type) where
  position : ℤ
  ok : Bool := true
  strListValue : List QString := []
  settingsMap : SettingsMap V

/-- A line `key=value`. -/
def keyLine (section_ : QSettingsKey) (l : Line) (line : List UInt8) (s : SectionScan V) :
    Exec (SectionScan V) := do
  let equalsPos := l.equalsPos - l.lineStart
  qAssert (equalsPos ≥ 0 ∧ equalsPos < l.lineLen)
  let key ← first line equalsPos
  let value ← slicedFrom line (equalsPos + 1)
  let (lowercaseOnly, strKey) ← iniUnescapedKey p.simd p.isUpper p.toUShort (trimmed key)
    section_.originalCaseKey
  let casing := if lowercaseOnly ∧ section_.str = section_.originalCaseKey then .CaseSensitive
    else IniCaseSensitivity p
  let (isStringList, strValue, strListValue) ← iniUnescapedStringList p.simd value [] s.strListValue
  let variant := if isStringList then p.stringListToVariantList strListValue
    else p.stringToVariant strValue
  let key ← mkSettingsKey p strKey casing s.position
  return { s with
    position := s.position + 1
    strListValue := strListValue
    settingsMap := s.settingsMap.insert key variant }

/-- The loop of `readIniSection`, from `dataPos` on. -/
def readSectionLines (section_ : QSettingsKey) (data : List UInt8) :
    ℕ → ℕ → SectionScan V → Exec (SectionScan V)
  | 0, _, _ => .error .diverge
  | rounds + 1, dataPos, s => do
    let (found, l) ← readIniLine data dataPos
    if found then
      let line ← sliced data l.lineStart l.lineLen
      qAssert (line.head? ≠ some 0x5b)
      let s ← if l.equalsPos = -1 then
          pure { s with ok := s.ok && decide (line.head? = some 0x3b) }
        else keyLine p section_ l line s
      readSectionLines section_ data rounds l.dataPos s
    else return s

def readIniSection (section_ : QSettingsKey) (data : List UInt8) (settingsMap : SettingsMap V) :
    Exec (Bool × SettingsMap V) := do
  let s ← readSectionLines p section_ data (data.length + 1) 0
    { position := section_.originalKeyPosition, settingsMap := settingsMap }
  return (s.ok, s.settingsMap)

/-! ## Texts without sections -/

/-- No line of the text starts with `[`. -/
inductive Plain : List UInt8 → Prop
  | done {t : List UInt8} : skipBlank t = [] → Plain t
  | line {t u : List UInt8} : skipBlank t = u → u ≠ [] → u.head? ≠ some 0x5b →
      Plain (u.drop (lineLength false u)) → Plain t

theorem Plain.of_skipBlank {t t' : List UInt8} (h : skipBlank t = skipBlank t') (hp : Plain t') :
    Plain t := by
  cases hp with
  | done hnil => exact .done (h.trans hnil)
  | line hskip hne hhead hrest => exact .line (h.trans hskip) hne hhead hrest

theorem Plain.blank {b u : List UInt8} (hb : Blank b) (h : Plain u) : Plain (b ++ u) :=
  .of_skipBlank (hb u) h

/-- A line, when what follows it begins as it should. -/
theorem Plain.append {u v : List UInt8} (hskip : skipBlank u = u) (hne : u ≠ [])
    (hhead : u.head? ≠ some 0x5b) (hv : v.head? = (u.drop (lineLength false u)).head?)
    (h : Plain v) : Plain (u.take (lineLength false u) ++ v) := by
  have hlen := lineLength_local false u hv
  have hhead' : (u.take (lineLength false u) ++ v).head? = u.head? := head?_take_append hv
  obtain ⟨c, t, rfl⟩ := exists_cons_of_ne_nil hne
  have hc : isSpace c = false ∧ c ≠ 0x3b := skipBlank_head (t := c :: t) (by rw [hskip]; rfl)
  have hself : skipBlank ((c :: t).take (lineLength false (c :: t)) ++ v) =
      (c :: t).take (lineLength false (c :: t)) ++ v := by
    apply skipBlank_self
    intro c' hc'
    rw [hhead'] at hc'
    cases hc'
    exact hc
  refine .line hself ?_ (by rw [hhead']; exact hhead) ?_
  · intro hnil
    rw [hnil] at hhead'
    cases hhead'
  · rw [hlen, drop_left' (length_take_of_le (lineLength_le _ _))]
    exact h

/-- Whatever plain text follows, its lines come after those of the piece. -/
def Closed (piece : List UInt8) : Prop := ∀ u, Plain u → Plain (piece ++ u)

theorem Closed.nil : Closed [] := fun _ h => h

theorem Closed.append {a b : List UInt8} (ha : Closed a) (hb : Closed b) : Closed (a ++ b) := by
  intro u hu
  rw [append_assoc]
  exact ha _ (hb u hu)

/-- The text of a section, before its next piece comes. -/
def glued (sectionData : List UInt8) : List UInt8 :=
  if sectionData ≠ [] then sectionData ++ [0x0a] else sectionData

theorem Closed.glued {a : List UInt8} (ha : Closed a) : Closed (glued a) := by
  unfold Ini.glued
  split
  · refine ha.append fun u hu => .blank (.spaces fun c hc => ?_) hu
    rw [mem_singleton.1 hc]
    rfl
  · exact ha

/-! ## Reading is total -/

section Total

variable {p}

theorem mkSettingsKey_ok {cs : CaseSensitivity}
    (h : p.alwaysCaseSensitive = true → cs = .CaseSensitive) (key : QString) (position : ℤ) :
    ∃ k, mkSettingsKey p key cs position = .ok k := by
  unfold mkSettingsKey
  by_cases halways : p.alwaysCaseSensitive = true
  · rw [if_pos halways, qAssert_pos (h halways)]
    exact ⟨_, rfl⟩
  · rw [if_neg halways]
    exact ⟨_, rfl⟩

theorem iniCaseSensitivity_of_always (h : p.alwaysCaseSensitive = true) :
    IniCaseSensitivity p = .CaseSensitive := if_pos h

theorem flushCurrentSection_ok {data : List UInt8} {lineStart : ℕ} {s : FileScan}
    (hle : s.currentSectionStart ≤ lineStart) (hstart : lineStart ≤ data.length)
    (hclosed : ∀ e ∈ s.unparsedIniSections, Closed e.2) :
    ∃ s', flushCurrentSection p data lineStart s = .ok s' ∧
      s'.currentSectionStart = s.currentSectionStart ∧
      ∀ e ∈ s'.unparsedIniSections, Closed e.2 ∨
        ∃ a, Closed a ∧ e.2 = a ++ (data.take lineStart).drop s.currentSectionStart := by
  obtain ⟨key, hkey⟩ := mkSettingsKey_ok (p := p) iniCaseSensitivity_of_always s.currentSection
    s.sectionPosition
  unfold flushCurrentSection
  rw [hkey, ok_bind, first_eq hstart, ok_bind,
    slicedFrom_eq (by rw [length_take_of_le hstart]; exact hle), ok_bind]
  refine ⟨_, rfl, rfl, fun e he => ?_⟩
  rcases SettingsMap.mem_insert he with he | he
  · exact .inl (hclosed e he)
  · refine .inr ⟨glued ((s.unparsedIniSections.find key).getD []), .glued ?_, he⟩
    cases hfind : s.unparsedIniSections.find key with
    | none => exact .nil
    | some text =>
      obtain ⟨e', he', rfl⟩ := SettingsMap.find_mem hfind
      exact hclosed e' he'

theorem sectionName_ok (iniSection : List UInt8) : ∃ name, sectionName p iniSection = .ok name := by
  unfold sectionName
  split
  · exact ⟨_, rfl⟩
  · split
    · exact ⟨_, rfl⟩
    · obtain ⟨⟨lowercaseOnly, currentSection⟩, h⟩ :=
        iniUnescapedKey_ok p.simd iniSection []
      rw [h]
      exact ⟨_, rfl⟩

theorem indexOf_spec {line : List UInt8} (h : line.head? = some 0x5b) :
    indexOf line 0x5d = -1 ∨ ∃ idx : ℕ, indexOf line 0x5d = idx ∧ 0 < idx ∧ idx < line.length := by
  unfold indexOf
  cases hfind : line.findIdx? (· == 0x5d) with
  | none => exact .inl rfl
  | some idx =>
    obtain ⟨hlt, hidx, -⟩ := findIdx?_eq_some_iff_getElem.1 hfind
    refine .inr ⟨idx, rfl, Nat.pos_of_ne_zero ?_, hlt⟩
    rintro rfl
    rw [head?_eq_getElem?, getElem?_eq_getElem hlt, Option.some.injEq] at h
    rw [h] at hidx
    cases hidx

theorem slicedFrom_one {data : List UInt8} (h : 0 < data.length) :
    slicedFrom data 1 = .ok (data.drop 1) := slicedFrom_eq h

theorem sectionLine_ok {data line : List UInt8} {l : Line} {s : FileScan}
    (hhead : line.head? = some 0x5b) (hlen : l.lineLen = line.length)
    (hle : s.currentSectionStart ≤ l.lineStart) (hstart : l.lineStart ≤ data.length)
    (hpiece : Closed ((data.take l.lineStart).drop s.currentSectionStart))
    (hclosed : ∀ e ∈ s.unparsedIniSections, Closed e.2) :
    ∃ s', sectionLine p data l line s = .ok s' ∧ s'.currentSectionStart = l.dataPos ∧
      ∀ e ∈ s'.unparsedIniSections, Closed e.2 := by
  obtain ⟨s₁, hs₁, -, hclosed₁⟩ := flushCurrentSection_ok (p := p) hle hstart hclosed
  have hclosed' : ∀ e ∈ s₁.unparsedIniSections, Closed e.2 := by
    intro e he
    rcases hclosed₁ e he with h | ⟨a, ha, heq⟩
    · exact h
    · rw [heq]
      exact ha.append hpiece
  have hpos : 0 < line.length := by
    cases line with
    | nil => cases hhead
    | cons c t => exact succ_pos _
  unfold sectionLine
  rw [hs₁, ok_bind]
  dsimp only
  rcases indexOf_spec hhead with hidx | ⟨idx, hidx, hidx0, hidxlt⟩
  · rw [hidx, qAssert_pos (.inl rfl), ok_bind, qAssert_pos (by rw [hlen]; omega), ok_bind,
      if_pos (by decide), if_pos (by decide), hlen, first_eq (le_refl _), ok_bind,
      slicedFrom_one (by rw [take_length]; exact hpos), ok_bind]
    obtain ⟨name, hname⟩ := sectionName_ok (p := p) (trimmed ((line.take line.length).drop 1))
    rw [hname, ok_bind]
    exact ⟨_, rfl, rfl, hclosed'⟩
  · rw [hidx, qAssert_pos (.inr (by omega)), ok_bind, qAssert_pos (by rw [hlen]; omega), ok_bind,
      if_neg (by omega), if_neg (by omega), first_eq (le_of_lt hidxlt), ok_bind,
      slicedFrom_one (by rw [length_take_of_le (le_of_lt hidxlt)]; exact hidx0), ok_bind]
    obtain ⟨name, hname⟩ := sectionName_ok (p := p) (trimmed ((line.take idx).drop 1))
    rw [hname, ok_bind]
    exact ⟨_, rfl, rfl, hclosed'⟩

/-- The loop of `readIniFile` at `dataPos`: what it has taken for the current section goes on with
the text from there, and what it has collected is closed. -/
structure Collects (data : List UInt8) (dataPos : ℕ) (s : FileScan) : Prop where
  start_le : s.currentSectionStart ≤ dataPos
  pos_le : dataPos ≤ data.length
  opened : ∀ u, u.head? = (data.drop dataPos).head? → Plain u →
    Plain ((data.take dataPos).drop s.currentSectionStart ++ u)
  ended : s.currentSectionStart < dataPos → ∀ c, (data.drop dataPos).head? = some c →
    endsLine c = true
  closed : ∀ e ∈ s.unparsedIniSections, Closed e.2

theorem drop_take_append {data : List UInt8} {a b c : ℕ} (hab : a ≤ b) (hbc : b ≤ c)
    (hb : b ≤ data.length) :
    (data.take c).drop a = (data.take b).drop a ++ (data.drop b).take (c - b) := by
  have hle : a ≤ (data.take b).length := by rwa [length_take_of_le hb]
  rw [← drop_take, ← drop_append_of_le_length hle, ← min_eq_left hbc,
    ← take_take, min_eq_left hbc, take_append_drop]

variable {data : List UInt8} {dataPos : ℕ} {s : FileScan} {l : Line}

/-- Between where `readIniLine` starts and the line that it finds stand spaces and comments. -/
theorem LineAt.blank (hl : LineAt data dataPos l) (hne : skipBlank (data.drop dataPos) ≠ []) :
    Blank ((data.drop dataPos).take (l.lineStart - dataPos)) := by
  obtain ⟨b, hb, hblank⟩ := exists_blank hne
  have hlen := congrArg List.length hb
  rw [← hl.text_eq, length_append, length_drop, length_drop] at hlen
  have hge := hl.start_ge
  have hle := hl.start_le
  have htake : (data.drop dataPos).take (l.lineStart - dataPos) = b := by
    rw [hb]
    exact take_left' (by omega)
  rw [htake]
  exact hblank

theorem Collects.piece_closed (h : Collects data dataPos s) (hl : LineAt data dataPos l)
    (hne : skipBlank (data.drop dataPos) ≠ [])
    (hhead : (data.drop l.lineStart).head? = some 0x5b) :
    Closed ((data.take l.lineStart).drop s.currentSectionStart) := by
  have hblank := hl.blank hne
  rw [drop_take_append h.start_le hl.start_ge h.pos_le]
  by_cases hstart : l.lineStart = dataPos
  · -- the section is empty: a line before the `[` would have come to its end there
    have hempty : ¬ s.currentSectionStart < dataPos := fun hlt => by
      rw [hstart] at hhead
      exact absurd (h.ended hlt _ hhead) (by decide)
    rw [hstart, Nat.sub_self, take_zero, append_nil,
      drop_eq_nil_of_le (by rw [length_take]; omega)]
    exact .nil
  · have hge := hl.start_ge
    have hle := hl.start_le
    intro u hu
    rw [append_assoc]
    refine h.opened _ ?_ (.blank hblank hu)
    have hpos : 0 < l.lineStart - dataPos := by omega
    obtain ⟨c, t, hc⟩ := exists_cons_of_ne_nil
      (l := data.drop dataPos) fun hnil => by
        rw [drop_eq_nil_iff] at hnil
        omega
    obtain ⟨n, hn⟩ := Nat.exists_eq_succ_of_ne_zero hpos.ne'
    rw [hc, hn]
    rfl

/-- A line of the current section. -/
theorem Collects.line (h : Collects data dataPos s) (hl : LineAt data dataPos l)
    (hne : skipBlank (data.drop dataPos) ≠ [])
    (hhead : (data.drop l.lineStart).head? ≠ some 0x5b) :
    Collects data l.dataPos s := by
  have hge := hl.start_ge
  have hpos := hl.pos_eq
  have hrest : (data.drop l.lineStart).drop (lineLength false (data.drop l.lineStart)) =
      data.drop l.dataPos := by
    rw [drop_drop, ← hpos]
  have hline : (data.drop dataPos).take (l.dataPos - dataPos) =
      (data.drop dataPos).take (l.lineStart - dataPos) ++
        (data.drop l.lineStart).take (lineLength false (data.drop l.lineStart)) := by
    have hdrop : (data.drop dataPos).drop (l.lineStart - dataPos) = data.drop l.lineStart := by
      rw [drop_drop]
      congr 1
      omega
    rw [← hdrop, ← take_add, hdrop]
    congr 1
    omega
  refine ⟨h.start_le.trans (by omega), hl.pos_le, fun u hu hplain => ?_, fun _ c hc => ?_, h.closed⟩
  · rw [drop_take_append h.start_le (by omega) h.pos_le, append_assoc]
    refine h.opened _ (head?_take_append ?_) ?_
    · rw [hu, drop_drop]
      congr 2
      omega
    · rw [hline, append_assoc]
      refine .blank (hl.blank hne) (.append ?_ ?_ hhead ?_ hplain)
      · refine skipBlank_self fun c hc => skipBlank_head (t := data.drop dataPos) ?_
        rw [← hl.text_eq]
        exact hc
      · rw [hl.text_eq]
        exact hne
      · simp [hrest, hu]
  · rw [← hrest] at hc
    exact endsLine_of_lineLength _ _ hc

/-- A section begins. -/
theorem Collects.fresh (hstart : s.currentSectionStart = dataPos) (hle : dataPos ≤ data.length)
    (hclosed : ∀ e ∈ s.unparsedIniSections, Closed e.2) : Collects data dataPos s := by
  refine ⟨le_of_eq hstart, hle, fun u _ hplain => ?_, fun hlt => ?_, hclosed⟩
  · rw [hstart, drop_eq_nil_of_le (by rw [length_take]; omega)]
    exact hplain
  · omega

theorem Collects.setPosition (h : Collects data dataPos s) (position : ℕ) :
    Collects data dataPos { s with position := position } :=
  ⟨h.start_le, h.pos_le, h.opened, h.ended, h.closed⟩

/-- The line that `readIniLine` has found. -/
theorem LineAt.sliced (hl : LineAt data dataPos l) :
    View.sliced data l.lineStart l.lineLen =
      .ok ((data.drop l.lineStart).take (lineLength false (data.drop l.lineStart))) := by
  rw [hl.len_eq]
  have hle := hl.pos_le
  rw [hl.pos_eq] at hle
  exact sliced_eq hle

theorem LineAt.pos_lt (hl : LineAt data dataPos l) (hne : skipBlank (data.drop dataPos) ≠ []) :
    0 < lineLength false (data.drop l.lineStart) := by
  rw [hl.text_eq]
  obtain ⟨c, u, hu⟩ := exists_cons_of_ne_nil hne
  obtain ⟨hspace, hsemicolon⟩ := skipBlank_head (t := data.drop dataPos) (c := c) (by rw [hu]; rfl)
  rw [hu]
  exact lineLength_pos (endsLine_of_text hspace hsemicolon)

theorem LineAt.head?_line (hl : LineAt data dataPos l)
    (hne : skipBlank (data.drop dataPos) ≠ []) :
    ((data.drop l.lineStart).take (lineLength false (data.drop l.lineStart))).head? =
      (data.drop l.lineStart).head? := by
  obtain ⟨n, hn⟩ := exists_eq_succ_of_ne_zero (hl.pos_lt hne).ne'
  rw [hn]
  cases data.drop l.lineStart <;> rfl

theorem LineAt.length_line (_ : LineAt data dataPos l) :
    ((data.drop l.lineStart).take (lineLength false (data.drop l.lineStart))).length =
      lineLength false (data.drop l.lineStart) :=
  length_take_of_le (lineLength_le _ _)

theorem readIniLines_ok {rounds : ℕ} (h : Collects data dataPos s)
    (hrounds : data.length < dataPos + rounds) :
    ∃ s', readIniLines p data rounds dataPos s = .ok (data.length, s') ∧
      s'.currentSectionStart ≤ data.length ∧ Plain (data.drop s'.currentSectionStart) ∧
      ∀ e ∈ s'.unparsedIniSections, Closed e.2 := by
  induction rounds generalizing dataPos s with
  | zero =>
    have hle := h.pos_le
    omega
  | succ rounds ih =>
    obtain ⟨l, hread, hl⟩ := readIniLine_spec h.pos_le
    unfold readIniLines
    rw [hread, ok_bind]
    dsimp only
    by_cases hne : skipBlank (data.drop dataPos) ≠ []
    · have hlt := hl.pos_lt hne
      have hpos := hl.pos_eq
      have hge := hl.start_ge
      rw [if_pos (decide_eq_true hne), hl.sliced, ok_bind, hl.head?_line hne]
      by_cases hhead : (data.drop l.lineStart).head? = some 0x5b
      · obtain ⟨s₁, hs₁, hstart, hclosed⟩ := sectionLine_ok (p := p) (l := l)
          ((hl.head?_line hne).trans hhead) (by rw [hl.length_line, hl.len_eq])
          (h.start_le.trans hge) hl.start_le (h.piece_closed hl hne hhead) h.closed
        rw [if_pos hhead, hs₁, ok_bind]
        exact ih ((Collects.fresh hstart hl.pos_le hclosed).setPosition _) (by omega)
      · rw [if_neg hhead, pure_eq_ok, ok_bind]
        exact ih ((h.line hl hne hhead).setPosition _) (by omega)
    · have hnil := not_not.1 hne
      rw [if_neg (by rw [decide_eq_true_eq]; exact hne)]
      have hend : l.lineStart = data.length := by
        have hdrop := hl.text_eq
        rw [hnil, drop_eq_nil_iff] at hdrop
        exact le_antisymm hl.start_le hdrop
      have hdata : data.drop s.currentSectionStart =
          (data.take dataPos).drop s.currentSectionStart ++ data.drop dataPos := by
        have happend := drop_take_append h.start_le h.pos_le h.pos_le
        rwa [take_length, take_of_length_le (le_of_eq length_drop)] at happend
      refine ⟨s, by rw [hend]; rfl, h.start_le.trans h.pos_le, ?_, h.closed⟩
      rw [hdata]
      exact h.opened _ rfl (.done hnil)

theorem readIniFile_ok (p : Platform V) (data : List UInt8) :
    ∃ ok sections, readIniFile p data = .ok (ok, sections) ∧ ∀ e ∈ sections, Plain e.2 := by
  have hrounds : (withoutBom data).length < 0 + ((withoutBom data).length + 1) := by omega
  obtain ⟨s, hs, hle, hplain, hclosed⟩ := readIniLines_ok (p := p)
    (Collects.fresh (s := {}) rfl (zero_le _) (forall_mem_nil _)) hrounds
  obtain ⟨s', hs', -, hsections⟩ := flushCurrentSection_ok (p := p) hle (le_refl _) hclosed
  unfold readIniFile
  dsimp only
  rw [hs, ok_bind]
  dsimp only
  rw [qAssert_pos rfl, ok_bind, hs', ok_bind]
  refine ⟨_, _, rfl, fun e he => ?_⟩
  rcases hsections e he with h | ⟨a, ha, heq⟩
  · have hplain' := h [] (.done (skipBlank_self fun c hc => by cases hc))
    rwa [append_nil] at hplain'
  · rw [heq, take_length]
    exact ha _ hplain

theorem keyLine_ok (section_ : QSettingsKey) {line : List UInt8} (s : SectionScan V)
    (hlen : l.lineLen = line.length) (hstart : l.lineStart ≤ l.equalsPos)
    (hend : l.equalsPos < l.lineStart + l.lineLen) :
    ∃ s', keyLine p section_ l line s = .ok s' := by
  obtain ⟨n, hn⟩ := Int.eq_ofNat_of_zero_le (Int.sub_nonneg.2 hstart)
  have hlt : n < line.length := by omega
  unfold keyLine
  dsimp only
  have hslice : slicedFrom line ((n : ℤ) + 1) = .ok (line.drop (n + 1)) :=
    slicedFrom_eq hlt
  rw [hn, qAssert_pos ⟨by omega, by omega⟩, ok_bind, first_eq (le_of_lt hlt), ok_bind, hslice,
    ok_bind]
  obtain ⟨⟨lowercaseOnly, strKey⟩, hkey⟩ : ∃ r, iniUnescapedKey p.simd p.isUpper p.toUShort
      (trimmed (line.take n)) section_.originalCaseKey = .ok r := iniUnescapedKey_ok p.simd _ _
  obtain ⟨⟨isStringList, strValue, strListValue⟩, hvalue⟩ :=
    iniUnescapedStringList_ok p.simd (line.drop (n + 1)) [] s.strListValue
  rw [hkey, ok_bind]
  dsimp only
  rw [hvalue, ok_bind]
  dsimp only
  have hcase : p.alwaysCaseSensitive = true → (if lowercaseOnly = true ∧
      section_.str = section_.originalCaseKey then .CaseSensitive else IniCaseSensitivity p) =
        CaseSensitivity.CaseSensitive := fun h => by
    rw [iniCaseSensitivity_of_always h, ite_self]
  obtain ⟨key, hmk⟩ := mkSettingsKey_ok hcase strKey s.position
  rw [hmk, ok_bind]
  exact ⟨_, rfl⟩

theorem Plain.next {t : List UInt8} (h : Plain t) (hne : skipBlank t ≠ []) :
    (skipBlank t).head? ≠ some 0x5b ∧
      Plain ((skipBlank t).drop (lineLength false (skipBlank t))) := by
  cases h with
  | done hnil => exact absurd hnil hne
  | line hskip _ hhead hrest =>
    subst hskip
    exact ⟨hhead, hrest⟩

theorem readSectionLines_ok (section_ : QSettingsKey) {rounds : ℕ} {s : SectionScan V}
    (h : Plain (data.drop dataPos)) (hle : dataPos ≤ data.length)
    (hrounds : data.length < dataPos + rounds) :
    ∃ s', readSectionLines p section_ data rounds dataPos s = .ok s' := by
  induction rounds generalizing dataPos s with
  | zero => omega
  | succ rounds ih =>
    obtain ⟨l, hread, hl⟩ := readIniLine_spec hle
    unfold readSectionLines
    rw [hread, ok_bind]
    dsimp only
    by_cases hne : skipBlank (data.drop dataPos) ≠ []
    · obtain ⟨hhead, hrest⟩ := h.next hne
      rw [← hl.text_eq] at hhead hrest
      rw [drop_drop, ← hl.pos_eq] at hrest
      have hlt := hl.pos_lt hne
      have hpos := hl.pos_eq
      have hge := hl.start_ge
      rw [if_pos (decide_eq_true hne), hl.sliced, ok_bind,
        qAssert_pos (by rw [hl.head?_line hne]; exact hhead), ok_bind]
      by_cases hequals : l.equalsPos = -1
      · rw [if_pos hequals, pure_eq_ok, ok_bind]
        exact ih hrest hl.pos_le (by omega)
      · obtain ⟨hstart, hend⟩ := hl.equals.resolve_left hequals
        obtain ⟨s', hs'⟩ := keyLine_ok (p := p) section_ s
          (by rw [hl.length_line, hl.len_eq]) hstart (by rw [hl.len_eq]; omega)
        rw [if_neg hequals, hs', ok_bind]
        exact ih hrest hl.pos_le (by omega)
    · rw [if_neg (by rw [decide_eq_true_eq]; exact hne)]
      exact ⟨s, rfl⟩

theorem readIniSection_ok (p : Platform V) (section_ : QSettingsKey) {data : List UInt8}
    (h : Plain data) (settingsMap : SettingsMap V) :
    ∃ r, readIniSection p section_ data settingsMap = .ok r := by
  have hdrop : Plain (data.drop 0) := h
  have hrounds : data.length < 0 + (data.length + 1) := by omega
  obtain ⟨s, hs⟩ := readSectionLines_ok (p := p) section_
    (s := { position := section_.originalKeyPosition, settingsMap := settingsMap }) hdrop
    (zero_le _) hrounds
  unfold readIniSection
  rw [hs, ok_bind]
  exact ⟨_, rfl⟩

end Total

/-! ## Every file is read -/

/-- `readIniLine` stops at the end of the data, or takes a line and goes on. -/
def TakesLines (data : List UInt8) : Prop :=
  ∀ dataPos ≤ data.length, ∃ found l, readIniLine data dataPos = .ok (found, l) ∧
    dataPos ≤ l.lineStart ∧ l.lineStart + l.lineLen = l.dataPos ∧ l.dataPos ≤ data.length ∧
    (l.equalsPos = -1 ∨ (l.lineStart ≤ l.equalsPos ∧ l.equalsPos < l.lineStart + l.lineLen)) ∧
    if found then 0 < l.lineLen ∧ dataPos < l.dataPos else l.lineStart = data.length

theorem takesLines (data : List UInt8) : TakesLines data := by
  intro dataPos hle
  obtain ⟨l, hread, hl⟩ := readIniLine_spec hle
  have hge := hl.start_ge
  have hpos := hl.pos_eq
  have hlen := hl.len_eq
  refine ⟨_, l, hread, hge, by omega, hl.pos_le, ?_, ?_⟩
  · rcases hl.equals with h | ⟨hstart, hend⟩
    · exact .inl h
    · exact .inr ⟨hstart, by omega⟩
  · by_cases hne : skipBlank (data.drop dataPos) ≠ []
    · have hlt := hl.pos_lt hne
      rw [if_pos (decide_eq_true hne)]
      omega
    · rw [if_neg (by rw [decide_eq_true_eq]; exact hne)]
      have hdrop := hl.text_eq
      rw [not_not.1 hne, drop_eq_nil_iff] at hdrop
      exact le_antisymm hl.start_le hdrop

/-- Reading INI files is total: every file ends in sections, and every section in keys. -/
theorem readIni_total (p : Platform V) (data : List UInt8) :
    (∀ text, TakesLines text) ∧ ∃ ok sections, readIniFile p data = .ok (ok, sections) ∧
      ∀ e ∈ sections, ∀ settingsMap : SettingsMap V,
        ∃ r, readIniSection p e.1 e.2 settingsMap = .ok r := by
  obtain ⟨ok, sections, hread, hplain⟩ := readIniFile_ok p data
  exact ⟨takesLines, ok, sections, hread, fun e he settingsMap =>
    readIniSection_ok p e.1 (hplain e he) settingsMap⟩

end QtBase.Ini
