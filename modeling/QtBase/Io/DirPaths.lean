import QtBase.Core.Exec
import QtBase.Lib.PathSegments

/-! `qt_normalizePathSegments`, which scans a path from its end and fills a buffer from the end. -/
namespace QtBase.Dir

open UriReference PathSegments List Nat

abbrev dot : UInt16 := 0x2e

abbrev slash : UInt16 := 0x2f

theorem dot_ne_slash : dot ≠ slash := by decide

structure PathNormalizations where
  AllowUncPaths : Bool := false
  RemotePath : Bool := false

/-- `rootLength`, for a name that is not empty and where a path has no drive. -/
def rootLength (name : List UInt16) (allowUncPaths : Bool) : ℕ :=
  if allowUncPaths ∧ name.take 2 = [slash, slash] then
    match (name.drop 2).findIdx? (· == slash) with
    | some nextSlash => nextSlash + 2 + 1
    | none => name.length
  else if name.head? = some slash then 1
  else 0

/-- `p[i]` -/
def charAt (p : List UInt16) (i : ℤ) : Exec UInt16 :=
  if i < 0 then .error .undefined
  else match p[i.toNat]? with
    | some c => .ok c
    | none => .error .undefined

/-- `out[--used] = c`, where `out` is what was written of a buffer of `len` characters. -/
def write (len : ℕ) (c : UInt16) (out : List UInt16) : Exec (List UInt16) :=
  if out.length < len then .ok (c :: out) else .error .undefined

/-- Something was written, and no slash at last: `used != len && out[used] != '/'`. -/
def NeedsSlash (out : List UInt16) : Prop := out ≠ [] ∧ out.head? ≠ some slash

instance (out : List UInt16) : Decidable (NeedsSlash out) := inferInstanceAs (Decidable (_ ∧ _))

/-- "prepend a slash before copying when not empty" -/
def prependSlash (len : ℕ) (out : List UInt16) : Exec (List UInt16) :=
  if NeedsSlash out then write len slash out else .ok out

def isDot (p : List UInt16) (i : ℤ) : Exec Bool := do
  if i > 1 then
    if (← charAt p (i - 1)) = dot then return (← charAt p (i - 2)) = slash else return false
  else return false

def isDotDot (p : List UInt16) (i : ℤ) : Exec Bool := do
  if i > 2 then
    if (← charAt p (i - 1)) = dot then
      if (← charAt p (i - 2)) = dot then return (← charAt p (i - 3)) = slash else return false
    else return false
  else return false

/-- `i > 0 && p[i] == '/' && !isRemote` -/
def hasTrailingSlash (p : List UInt16) (i : ℤ) (isRemote : Bool) : Exec Bool := do
  if i > 0 then
    if (← charAt p i) = slash then return !isRemote else return false
  else return false

/-- `p[i] == '.' && (i == 0 || p[i-1] == '/')` -/
def isCurrentDir (p : List UInt16) (i : ℤ) : Exec Bool := do
  if (← charAt p i) = dot then
    if i = 0 then return true else return (← charAt p (i - 1)) = slash
  else return false

/-- `i >= 1 && p[i] == '.' && p[i-1] == '.' && (i < 2 || p[i - 2] == '/')` -/
def isUpDir (p : List UInt16) (i : ℤ) : Exec Bool := do
  if i ≥ 1 then
    if (← charAt p i) = dot then
      if (← charAt p (i - 1)) = dot then
        if i < 2 then return true else return (← charAt p (i - 2)) = slash
      else return false
    else return false
  else return false

/-- `while (i > 0 && up && p[i] == '/') { --up; --i; }` -/
def skipEmptySegments (p : List UInt16) : ℕ → ℤ → Exec (ℕ × ℤ)
  | 0, i => .ok (0, i)
  | up + 1, i => do
    if i > 0 then
      if (← charAt p i) = slash then skipEmptySegments p up (i - 1) else return (up + 1, i)
    else return (up + 1, i)

/-- The slashes before a segment that was copied, on a remote path. -/
def copySlashes (p : List UInt16) (len : ℕ) : ℕ → ℤ → List UInt16 → Exec (ℤ × List UInt16)
  | 0, _, _ => .error .diverge
  | rounds + 1, i, out => do
    if i > 0 then
      if (← charAt p i) = slash then
        if ← isDotDot p i then return (i, out)
        else if ← isDot p i then copySlashes p len rounds (i - 2) out
        else
          let out ← write len (← charAt p i) out
          copySlashes p len rounds (i - 1) out
      else return (i, out)
    else return (i, out)

/-- Before a segment that was copied, on a remote path. -/
def leaveSegment (p : List UInt16) (len : ℕ) (i : ℤ) (out : List UInt16) :
    Exec (ℤ × List UInt16) := do
  let (i, out) ← copySlashes p len (p.length + 1) i out
  -- in case of /./, jump over
  if ← isDot p i then return (i - 2, out) else return (i, out)

/-- "skip or copy": the loop over a segment and the slash before it. -/
def segmentLoop (p : List UInt16) (len : ℕ) (isRemote : Bool) (up : ℕ) :
    ℕ → ℤ → List UInt16 → Exec (ℤ × List UInt16)
  | 0, _, _ => .error .diverge
  | rounds + 1, i, out => do
    if i ≥ 0 then
      if (← charAt p i) = slash then
        if isRemote ∧ up = 0 then leaveSegment p len i out else return (i - 1, out)
      else
        let out ← if up = 0 then write len (← charAt p i) out else pure out
        segmentLoop p len isRemote up rounds (i - 1) out
    else return (i, out)

/-- The loop over the path: what is left of `up`, and what was written. -/
def pathLoop (p : List UInt16) (len : ℕ) (isRemote : Bool) :
    ℕ → ℤ → ℕ → List UInt16 → Exec (ℕ × List UInt16)
  | 0, _, _, _ => .error .diverge
  | rounds + 1, i, up, out => do
    if i ≥ 0 then
      if (← charAt p i) = slash then
        if isRemote ∧ up = 0 then
          if ← isDot p i then pathLoop p len isRemote rounds (i - 2) up out
          else
            let out ← write len (← charAt p i) out
            pathLoop p len isRemote rounds (i - 1) up out
        else pathLoop p len isRemote rounds (i - 1) up out
      else if ← isCurrentDir p i then pathLoop p len isRemote rounds (i - 1) up out
      else if ← isUpDir p i then
        let i := i - if i ≥ 2 then 3 else 2
        let (up, i) ← if isRemote then skipEmptySegments p (up + 1) i else pure (up + 1, i)
        pathLoop p len isRemote rounds i up out
      else
        let out ← if up = 0 then prependSlash len out else pure out
        let (i, out) ← segmentLoop p len isRemote up (p.length + 1) i out
        pathLoop p len isRemote rounds i (up - 1) out
    else return (up, out)

/-- "add remaining '..'" -/
def writeUps (len : ℕ) : ℕ → List UInt16 → Exec (List UInt16)
  | 0, out => .ok out
  | up + 1, out => do
    let out ← prependSlash len out
    let out ← write len dot out
    let out ← write len dot out
    writeUps len up out

/-- The prefix, from its end. -/
def writePrefix (len : ℕ) : List UInt16 → List UInt16 → Exec (List UInt16)
  | [], out => .ok out
  | c :: cs, out => do writePrefix len cs (← write len c out)

/-- The path after its prefix, from its last character at `i`: what is left of `up`, and what was
written. -/
def writePath (p : List UInt16) (len : ℕ) (isRemote : Bool) (i : ℤ) :
    Exec (ℕ × List UInt16) := do
  if ← hasTrailingSlash p i isRemote then
    let out ← write len slash []
    let (up, out) ← pathLoop p len isRemote (len + 1) (i - 1) 0 out
    return (up, ← writeUps len (if isRemote then 0 else up) out)
  else
    let (up, out) ← pathLoop p len isRemote (len + 1) i 0 []
    return (up, ← writeUps len (if isRemote then 0 else up) out)

/-- The prefix, or a dot if there is none and no name is left. -/
def writeRoot (name : List UInt16) (prefixLength : ℕ) (out : List UInt16) :
    Exec (List UInt16) :=
  if prefixLength ≠ 0 then
    writePrefix name.length (name.take prefixLength).reverse
      (if out.head? = some slash then out.tail else out)
  else if out = [] ∨ out.head? = some slash then write name.length dot out
  else .ok out

/-- The path, and whether it is right: after a root, no ".." is left over. -/
def qt_normalizePathSegments (name : List UInt16) (flags : PathNormalizations) :
    Exec (List UInt16 × Bool) := do
  let len := name.length
  if len = 0 then return (name, false)
  else
    let prefixLength := rootLength name flags.AllowUncPaths
    let i : ℤ := len - 1 - prefixLength
    let (up, out) ← writePath (name.drop prefixLength) len flags.RemotePath i
    let ok := decide (prefixLength = 0 ∨ up = 0)
    let out ← writeRoot name prefixLength out
    -- the buffer is full: the path was not modified
    if out.length = len then return (name, ok) else return (out, ok)

/-- "Strip away last slash except for root directories" -/
def stripSlash (ret : List UInt16) : List UInt16 :=
  if ret.length > 1 ∧ ret.getLast? = some slash then ret.dropLast else ret

/-- `qt_cleanPath`, where separators are slashes and there are no UNC paths. -/
def qt_cleanPath (path : List UInt16) : Exec (List UInt16 × Bool) := do
  if path = [] then return (path, false)
  else
    let (ret, ok) ← qt_normalizePathSegments path {}
    return (stripSlash ret, ok)

/-- `QDir::cleanPath` -/
def cleanPath (path : List UInt16) : Exec (List UInt16) := do
  let (ret, _) ← qt_cleanPath path
  return ret

theorem write_ok {len : ℕ} {c : UInt16} {out : List UInt16} (h : out.length < len) :
    write len c out = .ok (c :: out) := if_pos h

/-! ## The scan -/

/-- The scan is at `i`, and `rest` is the text up to there, from its end. -/
structure At (p : List UInt16) (i : ℤ) (rest : List UInt16) : Prop where
  index : i = rest.length - 1
  text : rest.reverse <+: p

section Scan

variable {p : List UInt16} {i : ℤ} {c : UInt16} {t rest : List UInt16}

theorem At.start (p : List UInt16) : At p (p.length - 1) p.reverse :=
  ⟨by rw [length_reverse], by rw [reverse_reverse]⟩

theorem At.drop (h : At p i rest) {n : ℕ} (hn : n ≤ rest.length) : At p (i - n) (rest.drop n) := by
  refine ⟨?_, ?_⟩
  · rw [h.index, length_drop]
    omega
  · rw [reverse_drop]
    exact (List.take_prefix _ _).trans h.text

theorem At.tail (h : At p i (c :: t)) : At p (i - 1) t := h.drop (le_add_left 1 t.length)

theorem At.nonneg (h : At p i (c :: t)) : 0 ≤ i := by
  rw [h.index, length_cons]
  omega

theorem At.neg (h : At p i []) : ¬ i ≥ 0 := by
  rw [h.index]
  decide

theorem At.charAt (h : At p i (c :: t)) : charAt p i = .ok c := by
  have hi : i.toNat = t.length := by
    rw [h.index, length_cons]
    omega
  obtain ⟨rest, hp⟩ := h.text
  have hget : p[i.toNat]? = some c := by
    rw [hi, ← hp, reverse_cons, append_assoc, getElem?_append_right (by simp)]
    simp
  rw [Dir.charAt, if_neg (by have := h.nonneg; omega), hget]

variable {w : List UInt16}

theorem At.enter (h : At p i (w ++ t)) (hw : w ≠ []) (hs : slash ∉ w) :
    i ≥ 0 ∧ ∃ c, Dir.charAt p i = .ok c ∧ c ≠ slash := by
  obtain ⟨c, w, rfl⟩ := exists_cons_of_ne_nil hw
  rw [cons_append] at h
  exact ⟨h.nonneg, c, h.charAt, fun hc => hs (hc ▸ mem_cons_self)⟩

variable {ws : List (List UInt16)}

theorem At.isCurrentDir (h : At p i (w ++ join slash ws)) (hw : w ≠ []) (hs : slash ∉ w) :
    isCurrentDir p i = .ok (decide (w = [dot])) := by
  obtain ⟨c, w, rfl⟩ := exists_cons_of_ne_nil hw
  rw [cons_append] at h
  rw [Dir.isCurrentDir, h.charAt, ok_bind]
  by_cases hc : c = dot
  · rw [if_pos hc, hc]
    have hi := h.index
    cases w with
    | nil =>
      cases ws with
      | nil =>
        rw [if_pos (by simpa using hi)]
        simp
      | cons s ws =>
        rw [nil_append, join_cons] at h hi
        rw [if_neg (by rw [hi]; simp; omega), h.tail.charAt]
        simp
    | cons d w =>
      have hd : d ≠ slash := fun hd => hs (by simp [hd])
      rw [if_neg (by rw [hi]; simp; omega), h.tail.charAt]
      simp [hd]
  · simp [hc]

theorem At.isUpDir (h : At p i (w ++ join slash ws)) (hw : w ≠ []) (hs : slash ∉ w) :
    isUpDir p i = .ok (decide (w = [dot, dot])) := by
  obtain ⟨c, w, rfl⟩ := exists_cons_of_ne_nil hw
  rw [cons_append] at h
  have hi := h.index
  rw [length_cons] at hi
  cases w with
  | nil =>
    cases ws with
    | nil =>
      rw [Dir.isUpDir, if_neg (by rw [hi]; simp)]
      simp
    | cons s ws =>
      rw [nil_append, join_cons] at h hi
      rw [Dir.isUpDir, if_pos (by rw [hi]; simp; omega), h.charAt, ok_bind, h.tail.charAt]
      split <;> simp [dot_ne_slash.symm]
  | cons d w =>
    rw [cons_append] at h hi
    rw [Dir.isUpDir, if_pos (by rw [hi]; simp; omega), h.charAt, ok_bind]
    by_cases hc : c = dot
    · rw [if_pos hc, h.tail.charAt, ok_bind]
      by_cases hd : d = dot
      · rw [if_pos hd, hc, hd]
        cases w with
        | nil =>
          cases ws with
          | nil =>
            rw [if_pos (by rw [hi]; simp)]
            simp
          | cons s ws =>
            rw [nil_append, join_cons] at h hi
            rw [if_neg (by rw [hi]; simp; omega), show i - 2 = i - 1 - 1 by omega,
              h.tail.tail.charAt]
            simp
        | cons e w =>
          have he : e ≠ slash := fun he => hs (by simp [he])
          rw [if_neg (by rw [hi]; simp; omega), show i - 2 = i - 1 - 1 by omega,
            h.tail.tail.charAt]
          simp [he]
      · simp [hd]
    · simp [hc]

/-- After a segment and the slash before it. -/
theorem At.next {w : List UInt16} {ws : List (List UInt16)} {s : List UInt16}
    (h : At p i (w ++ join slash (s :: ws))) : At p (i - (w.length + 1)) (s ++ join slash ws) := by
  have hdrop := h.drop (n := w.length + 1) (by simp)
  rw [join_cons, ← singleton_append, ← append_assoc, drop_left' (by simp)] at hdrop
  exact_mod_cast hdrop

theorem At.up (h : At p i ([dot, dot] ++ join slash ws)) :
    At p (i - if i ≥ 2 then 3 else 2) ([slash].intercalate ws) := by
  have hi := h.index
  cases ws with
  | nil =>
    rw [if_neg (by rw [hi]; simp)]
    have htail := h.tail.tail
    rwa [show i - 1 - 1 = i - 2 by omega] at htail
  | cons s ws =>
    rw [if_pos (by rw [hi]; simp; omega), intercalate_cons]
    exact h.next

theorem At.length_le (h : At p i rest) : rest.length ≤ p.length := by
  rw [← length_reverse]
  exact h.text.length_le

theorem length_intercalate_le (ws : List (List UInt16)) :
    ([slash].intercalate ws).length ≤ (join slash ws).length := by
  cases ws with
  | nil => exact le_refl 0
  | cons s ws =>
    rw [intercalate_cons, join_cons]
    exact le_succ _

theorem segmentLoop_local {len up : ℕ} {rounds : ℕ} {isRemote : Bool} {out : List UInt16}
    (hlocal : ¬ (isRemote ∧ up = 0)) (h : At p i (w ++ join slash ws)) (hs : slash ∉ w)
    (hrounds : w.length < rounds) (hroom : up = 0 → out.length + w.length ≤ len) :
    ∃ i', segmentLoop p len isRemote up rounds i out =
        .ok (i', if up = 0 then w.reverse ++ out else out) ∧
      At p i' ([slash].intercalate ws) := by
  induction w generalizing i rounds out with
  | nil =>
    obtain ⟨rounds, rfl⟩ := Nat.exists_eq_succ_of_ne_zero (Nat.ne_of_gt hrounds)
    rw [nil_append] at h
    cases ws with
    | nil =>
      refine ⟨i, ?_, h⟩
      rw [segmentLoop, if_neg h.neg]
      simp
    | cons s ws =>
      rw [join_cons] at h
      refine ⟨i - 1, ?_, by rw [intercalate_cons]; exact h.tail⟩
      rw [segmentLoop, if_pos h.nonneg, h.charAt, ok_bind, if_pos rfl, if_neg hlocal]
      simp
  | cons c w ih =>
    obtain ⟨rounds, rfl⟩ := Nat.exists_eq_succ_of_ne_zero (Nat.ne_zero_of_lt hrounds)
    rw [length_cons] at hrounds hroom
    have hc : c ≠ slash := fun hc => hs (hc ▸ mem_cons_self)
    have hs' : slash ∉ w := fun hmem => hs (mem_cons_of_mem _ hmem)
    rw [cons_append] at h
    rw [segmentLoop, if_pos h.nonneg, h.charAt, ok_bind, if_neg hc]
    by_cases hup : up = 0
    · have hlt : out.length < len := by
        have := hroom hup
        omega
      have hroom' : up = 0 → (c :: out).length + w.length ≤ len := fun _ => by
        have := hroom hup
        simp
        omega
      have ih' := ih h.tail hs' (Nat.lt_of_succ_lt_succ hrounds) hroom'
      rw [if_pos hup] at ih' ⊢
      rw [if_pos hup, ok_bind, write_ok hlt, ok_bind]
      simpa using ih'
    · have hroom' : up = 0 → out.length + w.length ≤ len := fun h0 => absurd h0 hup
      have ih' := ih h.tail hs' (Nat.lt_of_succ_lt_succ hrounds) hroom'
      rw [if_neg hup] at ih' ⊢
      rw [if_neg hup, pure_eq_ok, ok_bind]
      exact ih'

end Scan

/-! ## What is written -/

/-- Segments with slashes between them, and the trailing slash, if there is one. -/
def textOf (segs : List (List UInt16)) (trail : List UInt16) : List UInt16 :=
  [slash].intercalate segs ++ trail

/-- Segments that are kept. -/
structure Kept (segs : List (List UInt16)) : Prop where
  ne_nil : ∀ s ∈ segs, s ≠ []
  notMem : ∀ s ∈ segs, slash ∉ s

section Text

variable {segs : List (List UInt16)} {s trail : List UInt16} {len : ℕ}

theorem Kept.cons (hs : s ≠ []) (hslash : slash ∉ s) (h : Kept segs) : Kept (s :: segs) :=
  ⟨by simp only [mem_cons, forall_eq_or_imp]; exact ⟨hs, h.ne_nil⟩,
    by simp only [mem_cons, forall_eq_or_imp]; exact ⟨hslash, h.notMem⟩⟩

theorem kept_nil : Kept [] :=
  ⟨fun _ h => absurd h not_mem_nil, fun _ h => absurd h not_mem_nil⟩

theorem textOf_cons (h : segs ≠ []) :
    textOf (s :: segs) trail = s ++ slash :: textOf segs trail := by
  obtain ⟨s', segs, rfl⟩ := exists_cons_of_ne_nil h
  rw [textOf, textOf, intercalate_cons, intercalate_cons, join_cons]
  simp

theorem length_textOf_le {segs' : List (List UInt16)} (h : segs.Sublist segs') :
    (textOf segs trail).length ≤ (textOf segs' trail).length :=
  ((intercalate_sublist h).append (List.Sublist.refl trail)).length_le

theorem needsSlash_textOf (htrail : trail = [] ∨ trail = [slash]) (h : Kept segs) :
    NeedsSlash (textOf segs trail) ↔ segs ≠ [] := by
  constructor
  · rintro ⟨hne, hhead⟩ rfl
    rcases htrail with rfl | rfl
    · exact hne rfl
    · exact hhead rfl
  · intro hsegs
    have hhead := head_intercalate_ne h.notMem h.ne_nil
    have hnil : [slash].intercalate segs ≠ [] := intercalate_ne_nil hsegs h.ne_nil
    refine ⟨fun h0 => hnil (append_eq_nil_iff.1 h0).1, ?_⟩
    rwa [textOf, head?_append_of_ne_nil _ hnil]

theorem prependSlash_textOf (htrail : trail = [] ∨ trail = [slash]) (h : Kept segs)
    (hroom : (textOf (s :: segs) trail).length ≤ len) :
    ∃ out, prependSlash len (textOf segs trail) = .ok out ∧
      s ++ out = textOf (s :: segs) trail := by
  by_cases hsegs : segs = []
  · refine ⟨textOf segs trail, if_neg fun hn => (needsSlash_textOf htrail h).1 hn hsegs, ?_⟩
    rw [hsegs, textOf, textOf, intercalate_cons]
    simp
  · have hlen : (textOf segs trail).length < len := by
      rw [textOf_cons hsegs, length_append, length_cons] at hroom
      omega
    refine ⟨slash :: textOf segs trail, ?_, (textOf_cons hsegs).symm⟩
    rw [prependSlash, if_pos ((needsSlash_textOf htrail h).2 hsegs), write_ok hlen]

end Text

/-! ## The loop over the path -/

/-- The segments that move: what is written never gets longer than these. -/
def moves (segs : List (List UInt16)) : List (List UInt16) :=
  (segs.filter fun s => ¬ Stays dot s).reverse

theorem moves_stays {s : List UInt16} (segs : List (List UInt16)) (h : Stays dot s) :
    moves (s :: segs) = moves segs := by
  rw [moves, filter_cons_of_neg (by simpa using h), moves]

theorem moves_cons {s : List UInt16} (segs : List (List UInt16)) (h : ¬ Stays dot s) :
    moves (s :: segs) = moves segs ++ [s] := by
  rw [moves, filter_cons_of_pos (by simpa using h), reverse_cons, moves]

theorem pathLoop_local {p trail : List UInt16} {len : ℕ} (htrail : trail = [] ∨ trail = [slash])
    {rounds : ℕ} {i : ℤ} {up : ℕ} {segs names : List (List UInt16)}
    (h : At p i ([slash].intercalate (segs.map List.reverse)))
    (hrounds : ([slash].intercalate (segs.map List.reverse)).length < rounds)
    (hslash : ∀ s ∈ segs, slash ∉ s) (hkept : Kept names)
    (hroom : (textOf (moves segs ++ List.replicate up [dot, dot] ++ names) trail).length ≤ len) :
    pathLoop p len false rounds i up (textOf names trail) =
      .ok ((back (Stays dot) dot segs up names).ups,
        textOf (back (Stays dot) dot segs up names).names trail) := by
  induction rounds generalizing i up segs names with
  | zero => cases hrounds
  | succ rounds ih =>
    rw [pathLoop]
    cases segs with
    | nil =>
      rw [if_neg h.neg, back]
      rfl
    | cons s segs =>
      rw [map_cons, intercalate_cons] at h hrounds
      by_cases hnil : s = []
      · rw [hnil, reverse_nil, nil_append] at h hrounds
        rw [hnil, moves_stays _ (.inl rfl)] at hroom
        rw [hnil, back_skip (.inl rfl)]
        cases segs with
        | nil =>
          rw [if_neg h.neg, back]
          rfl
        | cons s' segs =>
          rw [map_cons, join_cons, ← intercalate_cons, ← map_cons] at h hrounds
          rw [if_pos h.nonneg, h.charAt, ok_bind, if_pos rfl, if_neg (by simp)]
          exact ih h.tail (Nat.lt_of_succ_lt_succ hrounds)
            (fun s hs => hslash s (mem_cons_of_mem _ hs)) hkept hroom
      · have hrev : s.reverse ≠ [] := fun h0 => hnil (reverse_eq_nil_iff.1 h0)
        have hs : slash ∉ s := hslash s mem_cons_self
        have hsrev : slash ∉ s.reverse := fun h0 => hs (mem_reverse.1 h0)
        have hsegs : ∀ s ∈ segs, slash ∉ s := fun s' hs' => hslash s' (mem_cons_of_mem _ hs')
        have hcurrent := h.isCurrentDir hrev hsrev
        have hupdir := h.isUpDir hrev hsrev
        obtain ⟨hi, c, hc, hcslash⟩ := h.enter hrev hsrev
        rw [if_pos hi, hc, ok_bind, if_neg hcslash, hcurrent, ok_bind]
        have hshort : ([slash].intercalate (segs.map List.reverse)).length < rounds := by
          have hpos : 0 < s.length := length_pos_iff.2 hnil
          rw [length_append, length_reverse] at hrounds
          have := length_intercalate_le (segs.map List.reverse)
          omega
        rcases cases_segment (Stays dot) dot s with hstays | rfl | hname
        · obtain rfl : s = [dot] := hstays.resolve_left hnil
          rw [if_pos (by simp), back_skip hstays, ← back_skip (.inl rfl)]
          have hnext : At p (i - 1) ([slash].intercalate (([] :: segs).map List.reverse)) := by
            rw [map_cons, intercalate_cons]
            exact h.tail
          rw [moves_stays _ hstays, ← moves_stays _ (.inl rfl)] at hroom
          refine ih hnext ?_ (fun s hs => ?_) hkept hroom
          · rw [map_cons, intercalate_cons]
            exact Nat.lt_of_succ_lt_succ hrounds
          · rcases mem_cons.1 hs with rfl | hs
            · exact not_mem_nil
            · exact hsegs s hs
        · have hdrop : ¬ Stays dot [dot, dot] := not_stays_up
          rw [if_neg (by simp), hupdir, ok_bind, if_pos (by simp), if_neg (by simp), pure_eq_ok,
            ok_bind, back_up hdrop]
          rw [moves_cons _ hdrop, append_assoc (moves segs), singleton_append,
            ← replicate_succ] at hroom
          exact ih h.up hshort hsegs hkept hroom
        · rw [if_neg (by simpa using fun h0 => hname.not_skip (.inr h0)), hupdir, ok_bind,
            if_neg (by simpa using hname.not_up)]
          rw [moves_cons _ hname.not_skip] at hroom
          have hloops : s.reverse.length < p.length + 1 := by
            have := h.length_le
            rw [length_append] at this
            omega
          have hlocal : ¬ (false = true ∧ up = 0) := by simp
          cases up with
          | zero =>
            rw [replicate_zero, append_nil] at hroom
            have hlen : (textOf (s :: names) trail).length ≤ len :=
              (length_textOf_le (by simp)).trans hroom
            obtain ⟨out, hout, htext⟩ := prependSlash_textOf htrail hkept hlen
            have hfit : 0 = 0 → out.length + s.reverse.length ≤ len := fun _ => by
              rw [← htext, length_append] at hlen
              simp
              omega
            obtain ⟨i', hloop, hnext⟩ := segmentLoop_local hlocal h hsrev hloops hfit
            rw [back_name hname]
            rw [if_pos rfl, hout, ok_bind]
            dsimp only
            rw [hloop, ok_bind, if_pos rfl, reverse_reverse, htext]
            exact ih hnext hshort hsegs (hkept.cons hnil hs) (by simpa using hroom)
          | succ up =>
            rw [back_name_succ hname, if_neg (by simp), pure_eq_ok, ok_bind]
            have hfit : up + 1 = 0 → (textOf names trail).length + s.reverse.length ≤ len :=
              fun h => by cases h
            obtain ⟨i', hloop, hnext⟩ := segmentLoop_local hlocal h hsrev hloops hfit
            dsimp only
            rw [hloop, ok_bind, if_neg up.succ_ne_zero]
            refine ih hnext hshort hsegs hkept ((length_textOf_le ?_).trans hroom)
            rw [Nat.add_sub_cancel, append_assoc (moves segs), replicate_succ]
            simp only [append_assoc, singleton_append, append_sublist_append_left]
            exact (sublist_cons_self _ _).trans (sublist_cons_self _ _)

variable {q : List UInt16}

/-- The names that are left of a path, and how often ".." is. -/
theorem pathLoop_path {p trail : List UInt16} {len : ℕ} (htrail : trail = [] ∨ trail = [slash])
    (hp : p = q ++ trail) (hlen : p.length ≤ len) :
    pathLoop p len false (len + 1) (q.length - 1) 0 trail =
      .ok ((walk (Stays dot) dot (q.splitOn slash)).ups,
        textOf (walk (Stays dot) dot (q.splitOn slash)).names trail) := by
  have hrev : [slash].intercalate ((q.splitOn slash).reverse.map List.reverse) = q.reverse := by
    rw [← reverse_intercalate, intercalate_splitOn]
  have hat : At p (q.length - 1)
      ([slash].intercalate ((q.splitOn slash).reverse.map List.reverse)) := by
    rw [hrev]
    refine ⟨by rw [length_reverse], ?_⟩
    rw [reverse_reverse, hp]
    exact prefix_append ..
  have hqlen : q.length ≤ p.length := by
    simp [hp]
  have hsub : (moves (q.splitOn slash).reverse).Sublist (q.splitOn slash) := by
    rw [moves, ← filter_reverse, reverse_reverse]
    exact filter_sublist
  have hroom : (textOf (moves (q.splitOn slash).reverse ++ List.replicate 0 [dot, dot] ++ [])
      trail).length ≤ len := by
    refine (length_textOf_le (by simpa using hsub)).trans ?_
    rwa [textOf, intercalate_splitOn, ← hp]
  have hrounds : ([slash].intercalate ((q.splitOn slash).reverse.map List.reverse)).length <
      len + 1 := by
    rw [hrev, length_reverse]
    omega
  rw [← back_eq_walk not_stays_up]
  exact pathLoop_local htrail hat hrounds
    (fun s hs => notMem_of_mem_splitOn (mem_reverse.1 hs)) kept_nil hroom

/-- "add remaining '..'" -/
theorem writeUps_textOf {trail : List UInt16} {len : ℕ} (htrail : trail = [] ∨ trail = [slash])
    {ups : ℕ} {names : List (List UInt16)} (hkept : Kept names)
    (hroom : (textOf ((Walk.mk ups names).segments dot) trail).length ≤ len) :
    writeUps len ups (textOf names trail) =
      .ok (textOf ((Walk.mk ups names).segments dot) trail) := by
  induction ups generalizing names with
  | zero => rfl
  | succ ups ih =>
    have hsegs : (Walk.mk (ups + 1) names).segments dot =
        (Walk.mk ups ([dot, dot] :: names)).segments dot := by
      rw [Walk.segments, Walk.segments, replicate_succ', append_assoc]
      rfl
    rw [hsegs] at hroom ⊢
    have hfit : (textOf ([dot, dot] :: names) trail).length ≤ len :=
      (length_textOf_le (sublist_append_right _ _)).trans hroom
    obtain ⟨out, hout, htext⟩ := prependSlash_textOf htrail hkept hfit
    rw [← htext, length_append] at hfit
    have hdots : Kept ([dot, dot] :: names) :=
      hkept.cons (cons_ne_nil _ _) (by simp [dot_ne_slash.symm])
    rw [writeUps, hout, ok_bind, write_ok (by simp at hfit; omega), ok_bind,
      write_ok (by simp at hfit ⊢; omega), ok_bind]
    have hstep : dot :: dot :: out = textOf ([dot, dot] :: names) trail := htext
    rw [hstep]
    exact ih hdots hroom

theorem writePrefix_ok {len : ℕ} (pre : List UInt16) {out : List UInt16}
    (hroom : out.length + pre.length ≤ len) :
    writePrefix len pre out = .ok (pre.reverse ++ out) := by
  induction pre generalizing out with
  | nil => rfl
  | cons c pre ih =>
    rw [length_cons] at hroom
    rw [writePrefix, write_ok (by omega), ok_bind,
      ih (by rw [length_cons]; omega), reverse_cons, append_assoc]
    rfl

theorem exists_trail (p : List UInt16) :
    ∃ q trail, p = q ++ trail ∧
      (trail = [] ∧ hasTrailingSlash p (p.length - 1) false = .ok false ∨
        trail = [slash] ∧ q ≠ [] ∧ hasTrailingSlash p (p.length - 1) false = .ok true) := by
  induction p using List.reverseRecOn with
  | nil => exact ⟨[], [], rfl, .inl ⟨rfl, rfl⟩⟩
  | append_singleton q c _ =>
    have hat := At.start (q ++ [c])
    rw [reverse_concat] at hat
    by_cases h : q ≠ [] ∧ c = slash
    · have hpos := length_pos_iff.2 h.1
      refine ⟨q, [slash], by rw [h.2], .inr ⟨rfl, h.1, ?_⟩⟩
      rw [hasTrailingSlash, if_pos (by simpa using hpos), hat.charAt, ok_bind, if_pos h.2]
      rfl
    · refine ⟨q ++ [c], [], by rw [append_nil], .inl ⟨rfl, ?_⟩⟩
      rw [hasTrailingSlash]
      by_cases hq : q = []
      · rw [if_neg (by simp [hq])]
        rfl
      · rw [hat.charAt, ok_bind, if_neg fun hc => h ⟨hq, hc⟩]
        split <;> rfl

theorem kept_segments (p : List UInt16) :
    Kept ((walk (Stays dot) dot (p.splitOn slash)).segments dot) :=
  ⟨ne_nil_segments slash p, slash_notMem_segments p⟩

theorem length_textOf_segments_le (q trail : List UInt16) :
    (textOf ((walk (Stays dot) dot (q.splitOn slash)).segments dot) trail).length ≤
      (q ++ trail).length := by
  refine (length_textOf_le (segments_sublist not_stays_up _)).trans ?_
  rw [textOf, intercalate_splitOn]

theorem writePath_local {p : List UInt16} {len : ℕ} (hlen : p.length ≤ len) :
    ∃ q trail, p = q ++ trail ∧ (trail = [] ∨ trail = [slash] ∧ q ≠ []) ∧
      writePath p len false (p.length - 1) =
        .ok ((walk (Stays dot) dot (p.splitOn slash)).ups,
          textOf ((walk (Stays dot) dot (p.splitOn slash)).segments dot) trail) := by
  obtain ⟨q, trail, hp, htrail⟩ := exists_trail p
  have htrail' : trail = [] ∨ trail = [slash] := htrail.imp And.left And.left
  have hwalk : walk (Stays dot) dot (p.splitOn slash) = walk (Stays dot) dot (q.splitOn slash) := by
    rcases htrail' with rfl | rfl
    · rw [hp, append_nil]
    · rw [hp, walk_concat_slash]
  have hkept := kept_segments q
  have hnames : Kept (walk (Stays dot) dot (q.splitOn slash)).names :=
    ⟨fun s hs => hkept.ne_nil s (mem_append_right _ hs),
      fun s hs => hkept.notMem s (mem_append_right _ hs)⟩
  have hroom := (length_textOf_segments_le q trail).trans (hp ▸ hlen)
  have hloop := pathLoop_path htrail' hp hlen
  have hups : writeUps len (walk (Stays dot) dot (q.splitOn slash)).ups
      (textOf (walk (Stays dot) dot (q.splitOn slash)).names trail) =
        .ok (textOf ((walk (Stays dot) dot (q.splitOn slash)).segments dot) trail) :=
    writeUps_textOf htrail' hnames hroom
  refine ⟨q, trail, hp, htrail.imp And.left fun h => ⟨h.1, h.2.1⟩, ?_⟩
  rw [hwalk, writePath]
  rcases htrail with ⟨rfl, hslash⟩ | ⟨rfl, -, hslash⟩
  · rw [append_nil] at hp
    rw [hslash, ok_bind, if_neg Bool.false_ne_true]
    rw [hp] at hloop ⊢
    rw [hloop, ok_bind]
    dsimp only
    rw [if_neg Bool.false_ne_true, hups]
    rfl
  · have hlen' : 0 < len := by
      rw [hp, length_append] at hlen
      exact lt_of_lt_of_le (succ_pos _) hlen
    have hi : (p.length : ℤ) - 1 - 1 = q.length - 1 := by
      simp [hp]
    rw [hslash, ok_bind, if_pos rfl, write_ok hlen', ok_bind, hi, hloop, ok_bind]
    dsimp only
    rw [if_neg Bool.false_ne_true, hups]
    rfl

/-- What is left of a path, with a trailing slash or not. -/
def localPath (name trail : List UInt16) : List UInt16 :=
  let segs := (walk (Stays dot) dot (name.splitOn slash)).segments dot
  if name.head? = some slash then slash :: if segs = [] then [] else textOf segs trail
  else if segs = [] then dot :: trail
  else textOf segs trail

theorem localPath_slash (p trail : List UInt16) :
    localPath (slash :: p) trail =
      slash :: if (walk (Stays dot) dot (p.splitOn slash)).segments dot = [] then []
        else textOf ((walk (Stays dot) dot (p.splitOn slash)).segments dot) trail := by
  rw [localPath, walk_slash_cons]
  exact if_pos rfl

theorem textOf_nil (trail : List UInt16) : textOf [] trail = trail := rfl

theorem textOf_sublist (q trail : List UInt16) :
    (textOf ((walk (Stays dot) dot (q.splitOn slash)).segments dot) trail).Sublist
      (q ++ trail) := by
  refine List.Sublist.append ?_ (List.Sublist.refl trail)
  have hsegs : ((walk (Stays dot) dot (q.splitOn slash)).segments dot).Sublist (q.splitOn slash) :=
    segments_sublist not_stays_up _
  have hsub := @intercalate_sublist _ slash _ _ hsegs
  rwa [intercalate_splitOn] at hsub

theorem walk_append_trail {trail : List UInt16} (htrail : trail = [] ∨ trail = [slash]) :
    walk (Stays dot) dot ((q ++ trail).splitOn slash) = walk (Stays dot) dot (q.splitOn slash) := by
  rcases htrail with rfl | rfl
  · rw [append_nil]
  · exact walk_concat_slash q

theorem writeRoot_slash {trail : List UInt16} (htrail : trail = [] ∨ trail = [slash]) :
    writeRoot (slash :: (q ++ trail)) 1
        (textOf ((walk (Stays dot) dot ((q ++ trail).splitOn slash)).segments dot) trail) =
      .ok (localPath (slash :: (q ++ trail)) trail) ∧
    (localPath (slash :: (q ++ trail)) trail).Sublist (slash :: (q ++ trail)) := by
  have hkept := kept_segments q
  have hsub := textOf_sublist q trail
  rw [localPath_slash, walk_append_trail htrail]
  generalize (walk (Stays dot) dot (q.splitOn slash)).segments dot = segs at *
  have hout : (if (textOf segs trail).head? = some slash then (textOf segs trail).tail
      else textOf segs trail) = if segs = [] then [] else textOf segs trail := by
    by_cases hnil : segs = []
    · rw [if_pos hnil, hnil, textOf_nil]
      rcases htrail with rfl | rfl <;> rfl
    · rw [if_neg hnil, if_neg ((needsSlash_textOf htrail hkept).2 hnil).2]
  have hfit : (if segs = [] then [] else textOf segs trail).Sublist (q ++ trail) := by
    split
    · exact nil_sublist _
    · exact hsub
  refine ⟨?_, hfit.cons_cons slash⟩
  have hprefix : ((slash :: (q ++ trail)).take 1).reverse = [slash] := rfl
  rw [writeRoot, if_pos Nat.one_ne_zero, hout, hprefix, writePrefix_ok]
  · rfl
  · exact Nat.succ_le_succ hfit.length_le

/-- Of one character nothing is left only if it is a dot. -/
theorem eq_dot (hlen : q.length = 1) (hhead : q.head? ≠ some slash)
    (h : (walk (Stays dot) dot (q.splitOn slash)).segments dot = []) : q = [dot] := by
  obtain ⟨c, rfl⟩ := length_eq_one_iff.1 hlen
  have hc : slash ∉ [c] := fun hc => hhead (by rw [mem_singleton.1 hc]; rfl)
  rw [splitOn_eq_singleton hc, walk, foldl_cons, foldl_nil] at h
  rcases cases_segment (Stays dot) dot [c] with hstays | hup | hname
  · exact hstays.resolve_left (cons_ne_nil _ _)
  · cases hup
  · rw [step_name hname] at h
    cases h

theorem writeRoot_relative {trail : List UInt16} (hne : q ++ trail ≠ [])
    (hhead : (q ++ trail).head? ≠ some slash) (htrail : trail = [] ∨ trail = [slash] ∧ q ≠ []) :
    writeRoot (q ++ trail) 0
        (textOf ((walk (Stays dot) dot ((q ++ trail).splitOn slash)).segments dot) trail) =
      .ok (localPath (q ++ trail) trail) ∧
    ((localPath (q ++ trail) trail).length = (q ++ trail).length →
      localPath (q ++ trail) trail = q ++ trail) := by
  have htrail' : trail = [] ∨ trail = [slash] := htrail.imp_right And.left
  have hkept := kept_segments q
  have hsub := textOf_sublist q trail
  have hq : q ≠ [] := by
    rcases htrail with rfl | ⟨-, hq⟩
    · rwa [append_nil] at hne
    · exact hq
  have hpos := length_pos_iff.2 hq
  rw [writeRoot, if_neg (by decide), localPath, if_neg hhead, walk_append_trail htrail']
  by_cases hnil : (walk (Stays dot) dot (q.splitOn slash)).segments dot = []
  · rw [if_pos hnil, hnil, textOf_nil, if_pos, write, if_pos]
    · refine ⟨rfl, fun hlen => ?_⟩
      rw [head?_append_of_ne_nil _ hq] at hhead
      rw [length_cons, length_append] at hlen
      rw [eq_dot (by omega) hhead hnil, singleton_append]
    · rw [length_append]
      omega
    · rcases htrail' with rfl | rfl
      · exact .inl rfl
      · exact .inr rfl
  · rw [if_neg hnil, if_neg]
    · exact ⟨rfl, hsub.eq_of_length⟩
    · have hneeds := (needsSlash_textOf htrail' hkept).2 hnil
      exact not_or.2 hneeds

theorem qt_normalizePathSegments_eq {name out ret : List UInt16} {flags : PathNormalizations}
    {n up : ℕ} (hne : name ≠ []) (hn : rootLength name flags.AllowUncPaths = n)
    (hpath : writePath (name.drop n) name.length flags.RemotePath (name.length - 1 - n) =
      .ok (up, out))
    (hroot : writeRoot name n out = .ok ret) :
    qt_normalizePathSegments name flags =
      .ok (if ret.length = name.length then name else ret, decide (n = 0 ∨ up = 0)) := by
  rw [qt_normalizePathSegments, if_neg fun h0 => hne (length_eq_zero_iff.1 h0)]
  dsimp only
  rw [hn, hpath, ok_bind]
  dsimp only
  rw [hroot, ok_bind]
  split <;> rfl

variable {name : List UInt16}

theorem eq_of_full {ret : List UInt16} (hfull : ret.length = name.length → ret = name) :
    (if ret.length = name.length then name else ret) = ret := by
  split
  · exact (hfull ‹_›).symm
  · rfl

theorem rootLength_slash (p : List UInt16) : rootLength (slash :: p) false = 1 := rfl

theorem rootLength_relative {p : List UInt16} (h : p.head? ≠ some slash) :
    rootLength p false = 0 := by
  rw [rootLength, if_neg (by simp), if_neg h]

theorem exists_slash (h : name.head? = some slash) :
    ∃ p, name = slash :: p := by
  cases name with
  | nil => cases h
  | cons c p => exact ⟨p, by rw [Option.some.inj h]⟩

theorem qt_normalizePathSegments_local (hne : name ≠ []) :
    ∃ trail ok, (trail = [] ∨ trail = [slash]) ∧
      qt_normalizePathSegments name {} = .ok (localPath name trail, ok) := by
  by_cases hhead : name.head? = some slash
  · obtain ⟨p, rfl⟩ := exists_slash hhead
    obtain ⟨q, trail, rfl, htrail, hpath⟩ := @writePath_local p (p.length + 1) (le_succ _)
    have htrail' : trail = [] ∨ trail = [slash] := htrail.imp_right And.left
    obtain ⟨hroot, hsub⟩ := writeRoot_slash (q := q) htrail'
    have hi : ((slash :: (q ++ trail)).length : ℤ) - 1 - (1 : ℕ) = (q ++ trail).length - 1 := by
      simp
    have hnorm := @qt_normalizePathSegments_eq _ _ _ {} _ _ hne (rootLength_slash _)
      (by rw [hi]; exact hpath) hroot
    rw [eq_of_full hsub.eq_of_length] at hnorm
    exact ⟨trail, _, htrail', hnorm⟩
  · obtain ⟨q, trail, rfl, htrail, hpath⟩ := @writePath_local name name.length (le_refl _)
    obtain ⟨hroot, hfull⟩ := writeRoot_relative hne hhead htrail
    have hi : ((q ++ trail).length : ℤ) - 1 - (0 : ℕ) = (q ++ trail).length - 1 := by omega
    have hnorm := @qt_normalizePathSegments_eq _ _ _ {} _ _ hne (rootLength_relative hhead)
      (by rw [hi]; exact hpath) hroot
    rw [eq_of_full hfull] at hnorm
    exact ⟨trail, _, htrail.imp_right And.left, hnorm⟩

theorem last_textOf_ne {segs : List (List UInt16)} (h : Kept segs) :
    (textOf segs []).getLast? ≠ some slash := by
  have hrev : Kept (segs.reverse.map List.reverse) := by
    constructor
    · rw [forall_mem_map]
      exact fun s hs h0 => h.ne_nil s (mem_reverse.1 hs) (reverse_eq_nil_iff.1 h0)
    · rw [forall_mem_map]
      exact fun s hs h0 => h.notMem s (mem_reverse.1 hs) (mem_reverse.1 h0)
  have hhead := head_intercalate_ne hrev.notMem hrev.ne_nil
  rwa [← reverse_intercalate, head?_reverse, ← append_nil ([slash].intercalate segs)]
    at hhead

theorem stripSlash_concat {ret : List UInt16} (h : ret ≠ []) :
    stripSlash (ret ++ [slash]) = ret := by
  have hpos := length_pos_iff.2 h
  rw [stripSlash, if_pos ⟨by simpa using hpos, getLast?_concat⟩, dropLast_concat]

theorem stripSlash_eq {ret : List UInt16} (h : ret.getLast? ≠ some slash) : stripSlash ret = ret :=
  if_neg fun h' => h h'.2

theorem stripSlash_localPath {trail : List UInt16} (htrail : trail = [] ∨ trail = [slash]) :
    stripSlash (localPath name trail) = clean dot slash name := by
  have hkept := kept_segments name
  rw [localPath, clean]
  generalize (walk (Stays dot) dot (name.splitOn slash)).segments dot = segs at *
  have hlast := last_textOf_ne hkept
  have htext : segs ≠ [] → [slash].intercalate segs ≠ [] := fun h =>
    intercalate_ne_nil h hkept.ne_nil
  rw [textOf, append_nil] at hlast
  split
  · by_cases hnil : segs = []
    · rw [if_pos hnil, hnil]
      rfl
    · rw [if_neg hnil]
      rcases htrail with rfl | rfl
      · rw [textOf, append_nil, stripSlash_eq]
        rwa [getLast?_cons_of_ne_nil (htext hnil)]
      · exact stripSlash_concat (cons_ne_nil slash _)
  · split
    · rcases htrail with rfl | rfl
      · exact stripSlash_eq (by decide)
      · exact stripSlash_concat (cons_ne_nil dot [])
    · rename_i hnil
      rcases htrail with rfl | rfl
      · rw [textOf, append_nil, stripSlash_eq hlast]
      · exact stripSlash_concat (htext hnil)

theorem qt_cleanPath_eq {path : List UInt16} (hne : path ≠ []) :
    ∃ ok, qt_cleanPath path = .ok (clean dot slash path, ok) := by
  obtain ⟨trail, ok, htrail, hnorm⟩ := qt_normalizePathSegments_local hne
  refine ⟨ok, ?_⟩
  rw [qt_cleanPath, if_neg hne, hnorm, ok_bind, ← stripSlash_localPath htrail]
  rfl

theorem cleanPath_eq {path : List UInt16} (hne : path ≠ []) :
    cleanPath path = .ok (clean dot slash path) := by
  obtain ⟨ok, hclean⟩ := qt_cleanPath_eq hne
  rw [cleanPath, hclean]
  rfl

end QtBase.Dir
