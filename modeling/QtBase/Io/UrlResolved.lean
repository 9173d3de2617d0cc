import QtBase.Io.UrlPaths

/-! `QUrl::resolved`, and what it makes of a relative reference. -/
namespace QtBase.Url

open UriReference Bool

/-- `sectionIsPresent`, a bit for every section but the port and the path. -/
structure Sections where
  scheme : Bool := false
  userName : Bool := false
  password : Bool := false
  host : Bool := false
  query : Bool := false
  fragment : Bool := false
  deriving DecidableEq

/-- A `QUrlPrivate`. Of `error` there is whether it is set. -/
structure QUrlPrivate where
  port : ℤ := -1
  scheme : List UInt16 := []
  userName : List UInt16 := []
  password : List UInt16 := []
  host : List UInt16 := []
  path : List UInt16 := []
  query : List UInt16 := []
  fragment : List UInt16 := []
  error : Bool := false
  sectionIsPresent : Sections := {}
  isLocalFile : Bool := false
  /-- Schemes are never empty, but the flag is kept anyway. -/
  scheme_iff : sectionIsPresent.scheme = true ↔ scheme ≠ [] := by simp

namespace QUrlPrivate

variable (u : QUrlPrivate)

def hasScheme : Bool := u.sectionIsPresent.scheme

def hasAuthority : Bool :=
  u.sectionIsPresent.userName || u.sectionIsPresent.password || u.sectionIsPresent.host

def hasQuery : Bool := u.sectionIsPresent.query

def hasFragment : Bool := u.sectionIsPresent.fragment

def isEmpty : Bool := decide (u.sectionIsPresent = {}) && decide (u.port = -1) && u.path.isEmpty

/-- Whether `validityError` is `NoError`. -/
def noError : Bool :=
  if u.error then false
  else if u.path = [] then true
  else if u.path.head? = some slash then
    u.hasAuthority || u.path.length == 1 || decide (u.path[1]? ≠ some slash)
  else if u.sectionIsPresent.host then false
  else if u.sectionIsPresent.scheme then true
  else decide (u.path.find? (fun c => c == slash || c == 0x3a) ≠ some 0x3a)

/-- `QUrl::isValid` -/
def isValid : Bool := !u.isEmpty && u.noError

/-- A new URL with the authority of `d`, and a path. -/
def withAuthority (d : QUrlPrivate) (path : List UInt16) : QUrlPrivate :=
  { userName := d.userName
    password := d.password
    host := d.host
    port := d.port
    path := path
    sectionIsPresent :=
      { userName := d.sectionIsPresent.userName
        password := d.sectionIsPresent.password
        host := d.sectionIsPresent.host } }

def copyQuery (t from_ : QUrlPrivate) : QUrlPrivate :=
  { t with query := from_.query, sectionIsPresent := { t.sectionIsPresent with query := true } }

/-- The new URL for a relative reference without an authority, but for its scheme and fragment. -/
def inBase (d relative : QUrlPrivate) : QUrlPrivate :=
  if relative.path = [] then
    if relative.hasQuery then (withAuthority d d.path).copyQuery relative
    else if d.hasQuery then (withAuthority d d.path).copyQuery d
    else withAuthority d d.path
  else if relative.hasQuery then
    (withAuthority d (if relative.path.head? = some slash then relative.path
      else mergePaths d.host d.path relative.path)).copyQuery relative
  else
    withAuthority d (if relative.path.head? = some slash then relative.path
      else mergePaths d.host d.path relative.path)

/-- The scheme of the base, and its flag. -/
def setScheme (t d : QUrlPrivate) : QUrlPrivate :=
  { t with
    scheme := d.scheme
    sectionIsPresent := { t.sectionIsPresent with scheme := d.hasScheme }
    isLocalFile := t.isLocalFile || d.isLocalFile
    scheme_iff := d.scheme_iff }

/-- The fragment of the reference, and its flag. -/
def setFragment (t relative : QUrlPrivate) : QUrlPrivate :=
  { t with
    fragment := relative.fragment
    sectionIsPresent := { t.sectionIsPresent with fragment := relative.hasFragment } }

/-- The new URL, but for its fragment, and with its dot segments. -/
def transformed (d relative : QUrlPrivate) : QUrlPrivate :=
  if relative.scheme ≠ [] then relative
  else if relative.hasAuthority then relative.setScheme d
  else (inBase d relative).setScheme d

end QUrlPrivate

open QUrlPrivate

def resolved (d relative : Option QUrlPrivate) : Exec (Option QUrlPrivate) :=
  match d, relative with
  | none, relative => .ok relative
  | some d, none => .ok (some d)
  | some d, some relative => do
    let t := (transformed d relative).setFragment relative
    let path ← removeDotsFromPath t.path
    return some { t with path := path }

/-! ## The reference that a URL is -/

structure Authority where
  userName : Option (List UInt16)
  password : Option (List UInt16)
  host : Option (List UInt16)
  port : ℤ
  deriving DecidableEq

/-- A section, if it is there. -/
def component (present : Bool) (text : List UInt16) : Option (List UInt16) :=
  if present then some text else none

namespace QUrlPrivate

variable (u : QUrlPrivate)

def authority : Option Authority :=
  if u.hasAuthority then
    some ⟨component u.sectionIsPresent.userName u.userName,
      component u.sectionIsPresent.password u.password,
      component u.sectionIsPresent.host u.host, u.port⟩
  else none

def reference : Reference UInt16 Authority :=
  ⟨component u.hasScheme u.scheme, u.authority, u.path, component u.hasQuery u.query,
    component u.hasFragment u.fragment⟩

end QUrlPrivate

/-! ## Right and wrong -/

/-- A base with a scheme, and an authority or a path that begins with a slash; and a relative
reference. Both are valid. -/
structure Resolvable (base relative : QUrlPrivate) : Prop where
  base_valid : base.isValid = true
  relative_valid : relative.isValid = true
  base_scheme : base.hasScheme = true
  base_hier : base.hasAuthority = true ∨ base.path.head? = some slash
  relative_scheme : relative.hasScheme = false

/-- `resolved` is the reference resolution of RFC 3986. -/
def ResolvesRight (base relative : QUrlPrivate) : Prop :=
  ∃ t, resolved (some base) (some relative) = .ok (some t) ∧
    t.reference = resolve dot slash base.reference relative.reference

/-- The path that `removeDotsFromPath` gets. -/
def targetPath (base relative : QUrlPrivate) : List UInt16 :=
  if relative.hasAuthority then relative.path
  else if relative.path = [] then base.path
  else if relative.path.head? = some slash then relative.path
  else mergePaths base.host base.path relative.path

/-- It begins with a slash, or has no dot segments. -/
def PlainTarget (base relative : QUrlPrivate) : Prop :=
  (targetPath base relative).head? = some slash ∨ ¬ HasDots dot slash (targetPath base relative)

/-- The reference has no path, and the path of the base, which stays, has dot segments. -/
def KeepsDots (base relative : QUrlPrivate) : Prop :=
  relative.hasAuthority = false ∧ relative.path = [] ∧ HasDots dot slash base.path

/-- The authority of the base has an empty host, and no path is there to take a slash from. -/
def MergesBare (base relative : QUrlPrivate) : Prop :=
  relative.hasAuthority = false ∧ relative.path ≠ [] ∧ relative.path.head? ≠ some slash ∧
    base.hasAuthority = true ∧ base.host = [] ∧ base.path = []

section Target

variable {base relative : QUrlPrivate}

theorem transformed_relative (h : relative.hasScheme = false) :
    transformed base relative =
      (if relative.hasAuthority then relative else inBase base relative).setScheme base := by
  have hscheme : ¬ relative.scheme ≠ [] := fun hne =>
    false_ne_true (h.symm.trans (relative.scheme_iff.2 hne))
  unfold transformed
  rw [if_neg hscheme]
  split <;> rfl

theorem reference_setFragment (t : QUrlPrivate) (path : List UInt16) :
    ({ (t.setScheme base).setFragment relative with path := path } : QUrlPrivate).reference =
      ⟨component base.hasScheme base.scheme, t.authority, path, component t.hasQuery t.query,
        component relative.hasFragment relative.fragment⟩ := rfl

theorem inBase_authority : (inBase base relative).authority = base.authority := by
  unfold inBase
  split
  · split
    · rfl
    · split <;> rfl
  · split <;> rfl

theorem inBase_path : (inBase base relative).path =
    if relative.path = [] then base.path
    else if relative.path.head? = some slash then relative.path
    else mergePaths base.host base.path relative.path := by
  unfold inBase
  by_cases hpath : relative.path = []
  · rw [if_pos hpath, if_pos hpath]
    split
    · rfl
    · split <;> rfl
  · rw [if_neg hpath, if_neg hpath]
    split <;> rfl

theorem inBase_query : component (inBase base relative).hasQuery (inBase base relative).query =
    if relative.path = [] ∧ relative.hasQuery = false then component base.hasQuery base.query
    else component relative.hasQuery relative.query := by
  unfold inBase
  cases hquery : relative.hasQuery with
  | true =>
    rw [if_pos rfl, if_pos rfl, if_neg (c := relative.path = [] ∧ true = false) fun h => by
      cases h.2]
    split <;> rfl
  | false =>
    rw [if_neg Bool.false_ne_true, if_neg Bool.false_ne_true]
    by_cases hpath : relative.path = []
    · rw [if_pos hpath, if_pos (c := relative.path = [] ∧ false = false) ⟨hpath, rfl⟩]
      cases base.hasQuery with
      | true => rfl
      | false => rfl
    · rw [if_neg hpath, if_neg (c := relative.path = [] ∧ false = false) fun h => hpath h.1]
      rfl

/-- The path that the RFC gives. -/
def rfcPath (base relative : QUrlPrivate) : List UInt16 :=
  if relative.hasAuthority then removeDotSegments dot slash [] relative.path
  else if relative.path = [] then base.path
  else removeDotSegments dot slash [] (if relative.path.head? = some slash then relative.path
    else merge slash base.hasAuthority base.path relative.path)

theorem isSome_authority (u : QUrlPrivate) : u.authority.isSome = u.hasAuthority := by
  unfold authority
  by_cases h : u.hasAuthority = true
  · simp [h]
  · rw [if_neg h, eq_false_iff.2 h]
    rfl

theorem resolve_reference (h : relative.hasScheme = false) :
    resolve dot slash base.reference relative.reference =
      ⟨component base.hasScheme base.scheme,
        (if relative.hasAuthority then relative else inBase base relative).authority,
        rfcPath base relative,
        component (if relative.hasAuthority then relative else inBase base relative).hasQuery
          (if relative.hasAuthority then relative else inBase base relative).query,
        component relative.hasFragment relative.fragment⟩ := by
  have hscheme : relative.reference.scheme = none := by
    change component relative.hasScheme relative.scheme = none
    rw [h]
    rfl
  unfold rfcPath
  by_cases hauth : relative.hasAuthority = true
  · have hsome : ∃ a, relative.authority = some a := by
      rw [← Option.isSome_iff_exists, isSome_authority]
      exact hauth
    obtain ⟨a, ha⟩ := hsome
    rw [if_pos hauth, if_pos hauth]
    exact resolve_of_authority hscheme ha
  · have hnone : relative.authority = none := by
      rw [← Option.isNone_iff_eq_none, ← Option.isSome_eq_false_iff, isSome_authority]
      exact eq_false_iff.2 hauth
    rw [if_neg hauth, if_neg hauth, inBase_authority, inBase_query]
    by_cases hpath : relative.path = []
    · rw [resolve_of_empty hscheme hnone hpath, if_pos hpath]
      unfold reference
      dsimp only
      cases relative.hasQuery with
      | true => rw [if_neg (c := relative.path = [] ∧ true = false) fun h => by cases h.2]; rfl
      | false => rw [if_pos (c := relative.path = [] ∧ false = false) ⟨hpath, rfl⟩]; rfl
    · rw [resolve_of_path hscheme hnone hpath, if_neg hpath,
        if_neg (c := relative.path = [] ∧ relative.hasQuery = false) fun h => hpath h.1]
      unfold reference
      dsimp only
      rw [isSome_authority]

theorem resolved_eq (h : relative.hasScheme = false) :
    resolved (some base) (some relative) = do
      let path ← removeDotsFromPath (targetPath base relative)
      return some { ((if relative.hasAuthority then relative
        else inBase base relative).setScheme base).setFragment relative with path := path } := by
  have hpath : ((transformed base relative).setFragment relative).path =
      targetPath base relative := by
    rw [transformed_relative h]
    unfold targetPath
    by_cases hauth : relative.hasAuthority = true
    · rw [if_pos hauth, if_pos hauth]
      rfl
    · rw [if_neg hauth, if_neg hauth, ← inBase_path]
      rfl
  change (do
    let path ← removeDotsFromPath ((transformed base relative).setFragment relative).path
    return some { (transformed base relative).setFragment relative with path := path }) = _
  rw [hpath, transformed_relative h]

theorem resolvesRight_iff (h : relative.hasScheme = false) :
    ResolvesRight base relative ↔
      removeDotsFromPath (targetPath base relative) = .ok (rfcPath base relative) := by
  unfold ResolvesRight
  rw [resolved_eq h, resolve_reference h]
  constructor
  · rintro ⟨t, ht, hreference⟩
    obtain ⟨path, hpath, ht⟩ := bind_eq_ok ht
    rw [hpath]
    cases ht
    have heq := congrArg Reference.path hreference
    exact congrArg Except.ok heq
  · intro hpath
    rw [hpath, ok_bind]
    exact ⟨_, rfl, reference_setFragment _ _⟩

theorem removeDotsFromPath_plain {path : List UInt16}
    (h : path.head? = some slash ∨ ¬ HasDots dot slash path) :
    removeDotsFromPath path = .ok (removeDotSegments dot slash [] path) := by
  rcases h with h | h
  · obtain ⟨t, rfl⟩ : ∃ t, path = slash :: t := ⟨path.tail, (List.cons_head?_tail h).symm⟩
    exact removeDotsFromPath_rooted t
  · rw [removeDotsFromPath_dotless h, removeDotSegments_eq_self dot_ne_slash h]

theorem mergePaths_eq (hhier : base.hasAuthority = true ∨ base.path.head? = some slash)
    (h : ¬ (base.hasAuthority = true ∧ base.host = [] ∧ base.path = [])) (path : List UInt16) :
    mergePaths base.host base.path path = merge slash base.hasAuthority base.path path := by
  unfold mergePaths merge
  by_cases hpath : base.path = []
  · have hauth : base.hasAuthority = true := hhier.resolve_right fun hhead => by
      rw [hpath] at hhead
      cases hhead
    rw [if_pos ⟨fun hhost => h ⟨hauth, hhost, hpath⟩, hpath⟩, if_pos ⟨hauth, hpath⟩]
  · rw [if_neg (c := base.host ≠ [] ∧ base.path = []) fun h => hpath h.2,
      if_neg (c := base.hasAuthority = true ∧ base.path = []) fun h => hpath h.2]
    split
    · rename_i hslash
      have hdirectory : directory slash base.path = [] :=
        List.rdropWhile_eq_nil_iff.2 fun c hc => bne_iff_ne.2 fun heq => hslash (heq ▸ hc)
      rw [hdirectory]
      rfl
    · rfl

theorem resolvesRight_of_plain (h : Resolvable base relative) (hplain : PlainTarget base relative)
    (hdots : ¬ KeepsDots base relative) (hbare : ¬ MergesBare base relative) :
    ResolvesRight base relative := by
  rw [resolvesRight_iff h.relative_scheme, removeDotsFromPath_plain hplain]
  congr 1
  unfold targetPath rfcPath
  by_cases hauth : relative.hasAuthority = true
  · rw [if_pos hauth, if_pos hauth]
  · rw [if_neg hauth, if_neg hauth]
    have hauth' := eq_false_iff.2 hauth
    by_cases hpath : relative.path = []
    · rw [if_pos hpath, if_pos hpath]
      exact removeDotSegments_eq_self dot_ne_slash fun hd => hdots ⟨hauth', hpath, hd⟩
    · rw [if_neg hpath, if_neg hpath]
      by_cases hhead : relative.path.head? = some slash
      · rw [if_pos hhead, if_pos hhead]
      · rw [if_neg hhead, if_neg hhead, mergePaths_eq h.base_hier fun hbase =>
          hbare ⟨hauth', hpath, hhead, hbase⟩]

theorem not_resolvesRight_of_keepsDots (h : Resolvable base relative)
    (hplain : PlainTarget base relative) (hdots : KeepsDots base relative) :
    ¬ ResolvesRight base relative := by
  obtain ⟨hauth, hpath, hd⟩ := hdots
  have htarget : targetPath base relative = base.path := by
    unfold targetPath
    rw [if_neg (eq_false_iff.1 hauth), if_pos hpath]
  have hrfc : rfcPath base relative = base.path := by
    unfold rfcPath
    rw [if_neg (eq_false_iff.1 hauth), if_pos hpath]
  rw [resolvesRight_iff h.relative_scheme, removeDotsFromPath_plain hplain, htarget, hrfc,
    Except.ok.injEq]
  unfold PlainTarget at hplain
  rw [htarget] at hplain
  have hhead := hplain.resolve_right fun hnot => hnot hd
  obtain ⟨t, ht⟩ : ∃ t, base.path = slash :: t :=
    ⟨base.path.tail, (List.cons_head?_tail hhead).symm⟩
  rw [ht] at hd ⊢
  exact fun heq => (removeDotSegments_eq_self_iff dot_ne_slash t).1 heq hd

theorem not_resolvesRight_of_mergesBare (h : Resolvable base relative)
    (hplain : PlainTarget base relative) (hbare : MergesBare base relative) :
    ¬ ResolvesRight base relative := by
  obtain ⟨hauth, hpath, hhead, hbase, hhost, hempty⟩ := hbare
  have htarget : targetPath base relative = relative.path := by
    unfold targetPath mergePaths
    rw [if_neg (eq_false_iff.1 hauth), if_neg hpath, if_neg hhead,
      if_neg fun hmerge => hmerge.1 hhost, hempty, if_pos List.not_mem_nil]
  have hrfc : rfcPath base relative = removeDotSegments dot slash [] (slash :: relative.path) := by
    unfold rfcPath merge
    rw [if_neg (eq_false_iff.1 hauth), if_neg hpath, if_neg hhead, if_pos ⟨hbase, hempty⟩]
  unfold PlainTarget at hplain
  rw [htarget] at hplain
  have hdotless := hplain.resolve_left hhead
  have hdotless' : ¬ HasDots dot slash (slash :: relative.path) := by
    simp
    omega
  rw [resolvesRight_iff h.relative_scheme, htarget, hrfc, removeDotsFromPath_dotless hdotless,
    removeDotSegments_eq_self dot_ne_slash hdotless', Except.ok.injEq]
  exact fun heq => List.cons_ne_self _ _ heq.symm

end Target

end QtBase.Url
