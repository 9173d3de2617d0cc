import QtBase.Network.HPackEncoder

/-! A list that is not valid has given fields to the table before the encoder finds that out. -/
namespace QtBase

open List

namespace HPack

open BitPattern

/-! ## Bytes are written whole -/

namespace BitOStream

variable {s s' : BitOStream}

theorem pushOctets_aligned (h : s.bitsSet % 8 = 0) (k src : ℕ) :
    (pushOctets k src s).bitsSet % 8 = 0 := by
  induction k generalizing s src with
  | zero => exact h
  | succ k ih =>
    have hpush : ∀ b, (s.pushByte b).bitsSet % 8 = 0 := fun b => by
      show (s.bitsSet + 8) % 8 = 0
      omega
    unfold pushOctets
    split_ifs with hmore
    · exact ih (hpush _) _
    · exact hpush _

theorem writeBits_aligned (s : BitOStream) (bits : UInt8) :
    (s.writeBits bits (8 - s.bitsSet % 8)).bitsSet % 8 = 0 := by
  show (s.bitsSet + (8 - s.bitsSet % 8)) % 8 = 0
  omega

theorem write_aligned (s : BitOStream) (src : UInt32) : (s.write src).bitsSet % 8 = 0 := by
  unfold write
  dsimp only
  split_ifs with hshort
  · exact writeBits_aligned s _
  · exact pushOctets_aligned (writeBits_aligned s _) _ _

theorem huffman_encode_string_aligned (src : List UInt8) (s : BitOStream) :
    (huffman_encode_string src s).bitsSet % 8 = 0 := by
  have hpad : ∀ s' : BitOStream, (if s'.bitsSet % 8 ≠ 0 then
      s'.writeBits 0xff (8 - s'.bitsSet % 8) else s').bitsSet % 8 = 0 := by
    intro s'
    split_ifs with hpart
    · exact writeBits_aligned s' 0xff
    · exact not_not.mp hpart
  exact hpad (writeCodes src s)

theorem writeString_aligned {src : List UInt8} {compressed : Bool}
    (h : s.writeString src compressed = .ok s') : s'.bitsSet % 8 = 0 := by
  have hlast : ∀ (s : BitOStream) (len : UInt32), (if compressed = true then
      huffman_encode_string src (s.write len)
      else ⟨(s.write len).buffer ++ src, (s.write len).bitsSet + src.length * 8⟩).bitsSet % 8 =
        0 := by
    intro s len
    split_ifs
    · exact huffman_encode_string_aligned _ _
    · have haligned := write_aligned s len
      dsimp only
      omega
  unfold writeString at h
  dsimp only at h
  by_cases hcodes : compressed = true ∧ src.length % 2 ^ 32 ≠ 0
  · rw [if_pos hcodes] at h
    obtain ⟨bitLen, -, h⟩ := bind_eq_ok h
    obtain ⟨-, -, h⟩ := bind_eq_ok h
    rw [← Except.ok.inj h]
    exact hlast _ _
  · rw [if_neg hcodes] at h
    rw [← Except.ok.inj h]
    exact hlast _ _

end BitOStream

open BitOStream

/-! ## What a field does to the table -/

def requestNames : List (List UInt8) :=
  [ascii ":method", ascii ":authority", ascii ":scheme", ascii ":path"]

def responseNames : List (List UInt8) := [ascii ":status"]

namespace FieldLookupTable

variable {t : FieldLookupTable} {f : HeaderField}

/-- What is the same for a peer. -/
structure SameTable (t t' : FieldLookupTable) : Prop where
  entries : t'.dynamicPart = t.dynamicPart
  dataSize : t'.dataSize = t.dataSize
  tableCapacity : t'.tableCapacity = t.tableCapacity
  maxTableSize : t'.maxTableSize = t.maxTableSize

/-- A field that is not found is entered. -/
def enter (t : FieldLookupTable) (f : HeaderField) : FieldLookupTable :=
  if t.indexOf f.name f.value ≠ 0 then t else (t.prependField f.name f.value).1

theorem static_names : ∀ name ∈ requestNames ++ responseNames,
    (staticPart[findInStaticPart ⟨name, []⟩ false]?).map HeaderField.name = some name := by
  decide +kernel

theorem fieldName_indexOfName {name : List UInt8} (h : name ∈ requestNames ++ responseNames) :
    t.indexOfName name ≠ 0 ∧ t.fieldName (t.indexOfName name) = some name := by
  obtain ⟨g, hfind, hname⟩ := Option.map_eq_some_iff.mp (static_names name h)
  have hlt := (List.getElem?_eq_some_iff.mp hfind).1
  rw [staticPart_length] at hlt
  have hindex : t.indexOfName name = findInStaticPart ⟨name, []⟩ false + 1 := by
    unfold indexOfName lookup
    rw [hfind]
    exact if_pos (beq_iff_eq.mpr hname)
  refine ⟨by omega, ?_⟩
  unfold fieldName
  rw [hindex, field_static hlt, hfind, Option.map_some, hname]

end FieldLookupTable

open FieldLookupTable

namespace Encoder

variable {e e' : Encoder} {s s' : BitOStream} {b : Bool} {f : HeaderField}

theorem encodeIndexedField_ok {index : ℕ} (h : e.encodeIndexedField s index = .ok (e', s', b)) :
    e' = e ∧ b = true ∧ s'.bitsSet % 8 = 0 := by
  unfold encodeIndexedField at h
  obtain ⟨-, -, h⟩ := bind_eq_ok h
  obtain ⟨rfl, hrest⟩ := Prod.mk.inj (Except.ok.inj h)
  obtain ⟨rfl, rfl⟩ := Prod.mk.inj hrest
  exact ⟨rfl, rfl, write_aligned _ _⟩

theorem encodeLiteralFieldOfIndex_ok {index : ℕ} {value : List UInt8} {compress : Bool}
    (h : e.encodeLiteralFieldOfIndex s LiteralIncrementalIndexing index value compress =
      .ok (e', s', b)) :
    e'.lookupTable =
        (e.lookupTable.prependField ((e.lookupTable.fieldName index).getD []) value).1 ∧
      b = true ∧ s'.bitsSet % 8 = 0 := by
  unfold encodeLiteralFieldOfIndex at h
  obtain ⟨-, -, h⟩ := bind_eq_ok h
  obtain ⟨-, -, h⟩ := bind_eq_ok h
  obtain ⟨s'', hwrite, h⟩ := bind_eq_ok h
  obtain ⟨rfl, hrest⟩ := Prod.mk.inj (Except.ok.inj h)
  obtain ⟨rfl, rfl⟩ := Prod.mk.inj hrest
  exact ⟨rfl, rfl, writeString_aligned hwrite⟩

variable {name : List UInt8}

theorem encodeLiteralField_ok {value : List UInt8} {compress : Bool} (hs : s.bitsSet % 8 = 0)
    (h : e.encodeLiteralField s LiteralIncrementalIndexing name value compress = .ok (e', s', b)) :
    b = true ∧ s'.bitsSet % 8 = 0 := by
  unfold encodeLiteralField at h
  obtain ⟨-, -, h⟩ := bind_eq_ok h
  rw [if_neg (not_not.mpr hs)] at h
  obtain ⟨s'', -, h⟩ := bind_eq_ok h
  obtain ⟨w, hwrite, h⟩ := bind_eq_ok h
  obtain ⟨-, hrest⟩ := Prod.mk.inj (Except.ok.inj h)
  obtain ⟨rfl, rfl⟩ := Prod.mk.inj hrest
  exact ⟨rfl, writeString_aligned hwrite⟩

theorem encodeHeaderField_ok (hs : s.bitsSet % 8 = 0)
    (h : e.encodeHeaderField s f = .ok (e', s', b)) : b = true ∧ s'.bitsSet % 8 = 0 := by
  unfold encodeHeaderField at h
  dsimp only at h
  split_ifs at h with hfield hname
  · exact (encodeIndexedField_ok h).2
  · exact (encodeLiteralFieldOfIndex_ok h).2
  · exact encodeLiteralField_ok hs h

theorem encodeHeaderField_pseudo (hf : f.name ∈ requestNames ++ responseNames)
    (h : e.encodeHeaderField s f = .ok (e', s', b)) :
    e'.lookupTable = e.lookupTable.enter f ∧ b = true ∧ s'.bitsSet % 8 = 0 := by
  obtain ⟨hne, hsome⟩ := @fieldName_indexOfName e.lookupTable _ hf
  unfold encodeHeaderField at h
  dsimp only at h
  unfold enter
  rw [if_pos hne] at h
  split_ifs at h ⊢ with hfield
  · obtain ⟨rfl, hrest⟩ := encodeIndexedField_ok h
    exact ⟨rfl, hrest⟩
  · obtain ⟨htable, hrest⟩ := encodeLiteralFieldOfIndex_ok h
    rw [hsome] at htable
    exact ⟨htable, hrest⟩

theorem encodeMethod_ok (h : e.encodeMethod s f = .ok (e', s', b)) :
    e'.lookupTable = e.lookupTable.enter f ∧ b = true ∧ s'.bitsSet % 8 = 0 := by
  unfold encodeMethod at h
  obtain ⟨_, hassert, h⟩ := bind_eq_ok h
  have hmethod : f.name = ascii ":method" := by
    by_contra hne
    rw [qAssert_neg hne] at hassert
    cases hassert
  have hf : f.name ∈ requestNames ++ responseNames := by
    rw [hmethod]
    exact mem_cons_self
  obtain ⟨hne, hsome⟩ := @fieldName_indexOfName e.lookupTable _ hf
  refine @encodeHeaderField_pseudo e e' s s' b f hf ?_
  unfold encodeHeaderField
  dsimp only at h ⊢
  rw [if_pos hne]
  split_ifs at h ⊢ with hfield
  · exact h
  · obtain ⟨-, -, h⟩ := bind_eq_ok h
    exact h

/-! ## Header lists -/

/-- The fields with a pseudo-header name that a list has before it turns out not to be valid, by a
forbidden name or by a repeated one. -/
def reached (forbidden pseudo : List (List UInt8)) : List (List UInt8) → HttpHeader → HttpHeader
  | _, [] => []
  | seen, f :: header =>
    if f.name ∈ forbidden then []
    else if f.name ∈ pseudo then
      if f.name ∈ seen then [] else f :: reached forbidden pseudo (f.name :: seen) header
    else reached forbidden pseudo seen header

/-- What was found of a request are the names that were seen. -/
structure Found (methodFound : Bool) (headerFound : List Bool) (seen : List (List UInt8)) :
    Prop where
  method : methodFound = true ↔ ascii ":method" ∈ seen
  length : headerFound.length = 3
  header : ∀ j name, headerName[j]? = some name → (headerFound.getD j false = true ↔ name ∈ seen)

theorem headerName_facts : headerName.Nodup ∧ ∀ name ∈ headerName,
    name ≠ ascii ":status" ∧ name ≠ ascii ":method" ∧ name ≠ ascii "cookie" := by
  decide +kernel

theorem requestNames_iff :
    name ∈ requestNames ↔ name = ascii ":method" ∨ name ∈ headerName := by
  unfold requestNames headerName
  rw [mem_cons]

theorem responseNames_iff : name ∈ responseNames ↔ name = ascii ":status" :=
  mem_singleton

theorem Found.setMethod {methodFound : Bool} {headerFound : List Bool}
    {seen : List (List UInt8)} (h : Found methodFound headerFound seen) :
    Found true headerFound (ascii ":method" :: seen) where
  method := iff_of_true rfl mem_cons_self
  length := h.length
  header j name hname := by
    have hne := (headerName_facts.2 name (mem_of_getElem? hname)).2.1
    rw [h.header j name hname, mem_cons, or_iff_right hne]

theorem Found.setHeader {methodFound : Bool} {headerFound : List Bool} {seen : List (List UInt8)}
    (h : Found methodFound headerFound seen) {j : ℕ} (hj : headerName[j]? = some name) :
    Found methodFound (headerFound.set j true) (name :: seen) where
  method := by
    have hne := (headerName_facts.2 name (mem_of_getElem? hj)).2.1
    rw [h.method, mem_cons, or_iff_right hne.symm]
  length := by rw [length_set, h.length]
  header k name' hk := by
    have hlt : j < headerFound.length := by
      rw [h.length]
      exact (List.getElem?_eq_some_iff.mp hj).1
    rw [mem_cons, ← h.header k name' hk, getD_eq_getElem?_getD,
      getD_eq_getElem?_getD]
    by_cases hjk : j = k
    · rw [← hjk, hj] at hk
      rw [← hjk, List.getElem?_set_self hlt]
      exact iff_of_true rfl (.inl (Option.some.inj hk).symm)
    · have hne : name' ≠ name := fun heq => hjk <| by
        rw [heq] at hk
        obtain ⟨hj', hj⟩ := List.getElem?_eq_some_iff.mp hj
        obtain ⟨hk', hk⟩ := List.getElem?_eq_some_iff.mp hk
        exact (headerName_facts.1.getElem_inj_iff).mp (hj.trans hk.symm)
      rw [List.getElem?_set_ne hjk, or_iff_right hne]

theorem findIdx?_headerName {name : List UInt8} :
    match headerName.findIdx? fun n => n == name with
    | none => name ∉ headerName
    | some j => headerName[j]? = some name := by
  cases hfind : headerName.findIdx? fun n => n == name with
  | none =>
    intro hmem
    have := List.findIdx?_eq_none_iff.mp hfind name hmem
    rw [beq_self_eq_true] at this
    cases this
  | some j =>
    obtain ⟨hlt, heq, -⟩ := List.findIdx?_eq_some_iff_getElem.mp hfind
    exact List.getElem?_eq_some_iff.mpr ⟨hlt, beq_iff_eq.mp heq⟩

theorem found_nil : Found false [false, false, false] [] where
  method := iff_of_false Bool.false_ne_true not_mem_nil
  length := rfl
  header j name hj := by
    have hlt : j < 3 := (List.getElem?_eq_some_iff.mp hj).1
    have hfalse : (List.replicate 3 false).getD j false = false := getD_replicate false hlt
    exact iff_of_false (fun htrue => Bool.false_ne_true (hfalse.symm.trans htrue)) not_mem_nil

variable {header : HttpHeader}

/-- The loop over a request enters what is reached, and ends on the byte boundary once it has
found a method. -/
theorem requestLoop_ok {methodFound : Bool} {headerFound : List Bool} {seen : List (List UInt8)}
    {r : Option (Bool × List Bool)} (hfound : Found methodFound headerFound seen)
    (hs : methodFound = true → s.bitsSet % 8 = 0)
    (h : requestLoop e s methodFound headerFound header = .ok (e', s', r)) :
    e'.lookupTable = (reached responseNames requestNames seen header).foldl enter e.lookupTable ∧
      ∀ found, r = some found → found.1 = true → s'.bitsSet % 8 = 0 := by
  induction header generalizing e s methodFound headerFound seen with
  | nil =>
    unfold requestLoop at h
    obtain ⟨rfl, hrest⟩ := Prod.mk.inj (Except.ok.inj h)
    obtain ⟨rfl, rfl⟩ := Prod.mk.inj hrest
    refine ⟨rfl, fun found hr hmethod => hs ?_⟩
    rw [← Option.some.inj hr] at hmethod
    exact hmethod
  | cons f header ih =>
    have hnone : requestLoop e s methodFound headerFound (f :: header) = .ok (e, s, none) →
        e' = e ∧ r = none := by
      intro heq
      obtain ⟨rfl, hrest⟩ := Prod.mk.inj (Except.ok.inj (heq.symm.trans h))
      exact ⟨rfl, (Prod.mk.inj hrest).2.symm⟩
    unfold requestLoop at h hnone
    unfold reached
    by_cases hstatus : f.name = ascii ":status"
    · rw [if_pos hstatus] at hnone
      obtain ⟨rfl, rfl⟩ := hnone rfl
      rw [if_pos (responseNames_iff.2 hstatus)]
      exact ⟨rfl, fun _ hr => by cases hr⟩
    · rw [if_neg hstatus] at h hnone
      rw [if_neg (responseNames_iff.not.mpr hstatus)]
      by_cases hmethod : f.name = ascii ":method"
      · rw [if_pos hmethod] at h hnone
        rw [if_pos (requestNames_iff.2 (.inl hmethod))]
        cases methodFound with
        | true =>
          obtain ⟨rfl, rfl⟩ := hnone rfl
          rw [if_pos (hmethod ▸ hfound.method.mp rfl)]
          exact ⟨rfl, fun _ hr => by cases hr⟩
        | false =>
          have hseen : f.name ∉ seen := fun hmem =>
            Bool.false_ne_true (hfound.method.mpr (hmethod ▸ hmem))
          rw [if_neg Bool.false_ne_true] at h
          obtain ⟨⟨e₁, s₁, b⟩, hencode, h⟩ := bind_eq_ok h
          obtain ⟨htable, rfl, haligned⟩ := encodeMethod_ok hencode
          rw [if_neg hseen, foldl_cons, ← htable, hmethod]
          exact ih hfound.setMethod (fun _ => haligned) h
      · rw [if_neg hmethod] at h hnone
        have hother : f.name ∈ requestNames ↔ f.name ∈ headerName :=
          requestNames_iff.trans (or_iff_right hmethod)
        by_cases hcookie : f.name = ascii "cookie"
        · rw [if_pos hcookie] at h
          rw [if_neg fun hmem => (headerName_facts.2 _ (hother.mp hmem)).2.2 hcookie]
          exact ih hfound hs h
        · rw [if_neg hcookie] at h hnone
          have hfind := @findIdx?_headerName f.name
          cases hindex : headerName.findIdx? fun n => n == f.name with
          | none =>
            rw [hindex] at h hfind
            rw [if_neg fun hmem => hfind (hother.mp hmem)]
            exact ih hfound hs h
          | some j =>
            rw [hindex] at h hfind hnone
            have hmem : f.name ∈ requestNames := hother.mpr (mem_of_getElem? hfind)
            have hseen := hfound.header j _ hfind
            rw [if_pos hmem]
            dsimp only at h hnone
            by_cases hrepeated : headerFound.getD j false = true
            · rw [if_pos hrepeated] at hnone
              obtain ⟨rfl, rfl⟩ := hnone rfl
              rw [if_pos (hseen.mp hrepeated)]
              exact ⟨rfl, fun _ hr => by cases hr⟩
            · rw [if_neg hrepeated] at h
              obtain ⟨⟨e₁, s₁, b⟩, hencode, h⟩ := bind_eq_ok h
              obtain ⟨htable, rfl, haligned⟩ :=
                encodeHeaderField_pseudo (mem_append_left _ hmem) hencode
              rw [if_neg fun hmem => hrepeated (hseen.mpr hmem), foldl_cons, ← htable]
              exact ih (hfound.setHeader hfind) (fun _ => haligned) h

theorem is_request_pseudo_header_iff :
    is_request_pseudo_header name = true ↔ name ∈ requestNames := by
  unfold is_request_pseudo_header requestNames
  simp only [Bool.or_eq_true, beq_iff_eq, mem_cons, not_mem_nil, or_false, or_assoc]
  exact or_congr_right or_left_comm

theorem responseLoop_ok {header : HttpHeader} {statusFound : Bool} {seen : List (List UInt8)}
    {r : Option Bool} (hfound : statusFound = true ↔ ascii ":status" ∈ seen)
    (hs : statusFound = true → s.bitsSet % 8 = 0)
    (h : responseLoop e s statusFound header = .ok (e', s', r)) :
    e'.lookupTable = (reached requestNames responseNames seen header).foldl enter e.lookupTable ∧
      (r = some true → s'.bitsSet % 8 = 0) := by
  induction header generalizing e s statusFound seen with
  | nil =>
    unfold responseLoop at h
    obtain ⟨rfl, hrest⟩ := Prod.mk.inj (Except.ok.inj h)
    obtain ⟨rfl, rfl⟩ := Prod.mk.inj hrest
    exact ⟨rfl, fun hr => hs (Option.some.inj hr)⟩
  | cons f header ih =>
    have hnone : responseLoop e s statusFound (f :: header) = .ok (e, s, none) →
        e' = e ∧ r = none := by
      intro heq
      obtain ⟨rfl, hrest⟩ := Prod.mk.inj (Except.ok.inj (heq.symm.trans h))
      exact ⟨rfl, (Prod.mk.inj hrest).2.symm⟩
    unfold responseLoop at h hnone
    unfold reached
    by_cases hrequest : is_request_pseudo_header f.name = true
    · rw [if_pos hrequest] at hnone
      obtain ⟨rfl, rfl⟩ := hnone rfl
      rw [if_pos (is_request_pseudo_header_iff.1 hrequest)]
      exact ⟨rfl, fun hr => by cases hr⟩
    · rw [if_neg hrequest] at h hnone
      rw [if_neg (is_request_pseudo_header_iff.not.mp hrequest)]
      by_cases hstatus : f.name = ascii ":status"
      · rw [if_pos hstatus] at h hnone
        rw [if_pos (responseNames_iff.2 hstatus)]
        cases statusFound with
        | true =>
          obtain ⟨rfl, rfl⟩ := hnone rfl
          rw [if_pos (hstatus ▸ hfound.mp rfl)]
          exact ⟨rfl, fun hr => by cases hr⟩
        | false =>
          have hseen : f.name ∉ seen := fun hmem =>
            Bool.false_ne_true (hfound.mpr (hstatus ▸ hmem))
          rw [if_neg Bool.false_ne_true] at h
          obtain ⟨⟨e₁, s₁, b⟩, hencode, h⟩ := bind_eq_ok h
          obtain ⟨htable, rfl, haligned⟩ := encodeHeaderField_pseudo
            (mem_append_right _ (responseNames_iff.2 hstatus)) hencode
          rw [if_neg hseen, foldl_cons, ← htable, hstatus]
          exact ih (iff_of_true rfl mem_cons_self) (fun _ => haligned) h
      · rw [if_neg hstatus] at h
        rw [if_neg (responseNames_iff.not.mpr hstatus)]
        exact ih hfound hs h

theorem encodeFields_ok {leftOut : List UInt8 → Bool} (hs : s.bitsSet % 8 = 0)
    (h : encodeFields leftOut e s header = .ok (e', s', b)) :
    b = true := by
  induction header generalizing e s with
  | nil =>
    obtain ⟨-, hrest⟩ := Prod.mk.inj (Except.ok.inj h)
    exact (Prod.mk.inj hrest).2.symm
  | cons f header ih =>
    unfold encodeFields at h
    split_ifs at h with hout
    · exact ih hs h
    · obtain ⟨⟨e₁, s₁, b₁⟩, hencode, h⟩ := bind_eq_ok h
      obtain ⟨rfl, haligned⟩ := encodeHeaderField_ok hs hencode
      exact ih haligned h

theorem encodeRequest_false (h : e.encodeRequest s header = .ok (e', s', false)) :
    e'.lookupTable = (reached responseNames requestNames [] header).foldl enter e.lookupTable := by
  unfold encodeRequest at h
  split_ifs at h with hempty
  · rw [eq_nil_of_length_eq_zero hempty]
    exact congrArg Encoder.lookupTable (Prod.mk.inj (Except.ok.inj h)).1.symm
  · obtain ⟨⟨e₁, s₁, b⟩, hpseudo, h⟩ := bind_eq_ok h
    unfold encodeRequestPseudoHeaders at hpseudo
    obtain ⟨⟨e₂, s₂, found⟩, hloop, hpseudo⟩ := bind_eq_ok hpseudo
    obtain ⟨htable, haligned⟩ := requestLoop_ok found_nil (fun hf => by cases hf) hloop
    rw [← htable]
    cases found with
    | none =>
      obtain ⟨rfl, hrest⟩ := Prod.mk.inj (Except.ok.inj hpseudo)
      obtain ⟨rfl, rfl⟩ := Prod.mk.inj hrest
      exact congrArg Encoder.lookupTable (Prod.mk.inj (Except.ok.inj h)).1.symm
    | some found =>
      obtain ⟨rfl, hrest⟩ := Prod.mk.inj (Except.ok.inj hpseudo)
      obtain ⟨rfl, rfl⟩ := Prod.mk.inj hrest
      dsimp only at h
      split_ifs at h with hvalid
      · rw [Bool.and_eq_true] at hvalid
        exact absurd (encodeFields_ok (haligned found rfl hvalid.1) h) Bool.false_ne_true
      · exact congrArg Encoder.lookupTable (Prod.mk.inj (Except.ok.inj h)).1.symm

theorem encodeResponse_false (h : e.encodeResponse s header = .ok (e', s', false)) :
    e'.lookupTable = (reached requestNames responseNames [] header).foldl enter e.lookupTable := by
  unfold encodeResponse at h
  split_ifs at h with hempty
  · rw [eq_nil_of_length_eq_zero hempty]
    exact congrArg Encoder.lookupTable (Prod.mk.inj (Except.ok.inj h)).1.symm
  · obtain ⟨⟨e₁, s₁, b⟩, hpseudo, h⟩ := bind_eq_ok h
    unfold encodeResponsePseudoHeaders at hpseudo
    obtain ⟨⟨e₂, s₂, found⟩, hloop, hpseudo⟩ := bind_eq_ok hpseudo
    obtain ⟨htable, haligned⟩ := @responseLoop_ok _ _ _ _ header false [] _
      (iff_of_false Bool.false_ne_true not_mem_nil) (fun hf => by cases hf) hloop
    rw [← htable]
    obtain ⟨rfl, hrest⟩ := Prod.mk.inj (Except.ok.inj hpseudo)
    obtain ⟨rfl, rfl⟩ := Prod.mk.inj hrest
    dsimp only at h
    split_ifs at h with hvalid
    · have hfound : found = some true := by
        cases found with
        | none => cases hvalid
        | some b => exact congrArg some hvalid
      exact absurd (encodeFields_ok (haligned hfound) h) Bool.false_ne_true
    · exact congrArg Encoder.lookupTable (Prod.mk.inj (Except.ok.inj h)).1.symm

end Encoder

/-! ## When the table is intact -/

namespace FieldLookupTable

variable {t : FieldLookupTable}

theorem SameTable.refl (t : FieldLookupTable) : SameTable t t := ⟨rfl, rfl, rfl, rfl⟩

/-- Entering these fields leaves the table as it is: all of them are found, or those that are not
leave the very entries that were there before. -/
def Keeps (t : FieldLookupTable) (header : HttpHeader) : Prop :=
  (∀ f ∈ header, t.indexOf f.name f.value ≠ 0) ∨
    (∃ f ∈ header, t.indexOf f.name f.value = 0) ∧ SameTable t (header.foldl enter t)

theorem foldl_enter_of_found {header : HttpHeader}
    (h : ∀ f ∈ header, t.indexOf f.name f.value ≠ 0) : header.foldl enter t = t := by
  induction header with
  | nil => rfl
  | cons f header ih =>
    have hf : t.enter f = t := if_pos (h f mem_cons_self)
    rw [foldl_cons, hf]
    exact ih fun g hg => h g (mem_cons_of_mem _ hg)

theorem sameTable_iff (t : FieldLookupTable) (header : HttpHeader) :
    SameTable t (header.foldl enter t) ↔ t.Keeps header := by
  constructor
  · intro hsame
    by_cases hall : ∀ f ∈ header, t.indexOf f.name f.value ≠ 0
    · exact .inl hall
    · push Not at hall
      exact .inr ⟨hall, hsame⟩
  · intro hkeeps
    rcases hkeeps with hall | ⟨-, hsame⟩
    · rw [foldl_enter_of_found hall]
      exact SameTable.refl t
    · exact hsame

end FieldLookupTable

namespace Encoder

/-- How the encoding of a request ends: with which result, and with what in the table. -/
def ends (e : Encoder) (header : HttpHeader) : Option (Bool × List HeaderField) :=
  match e.encodeRequest (BitOStream.make []) header with
  | .ok (e, _, encoded) => some (encoded, e.lookupTable.dynamicPart)
  | .error _ => none

theorem exists_of_ends {e : Encoder} {header : HttpHeader} {encoded : Bool}
    {entries : List HeaderField} (h : e.ends header = some (encoded, entries)) :
    ∃ e' s', e.encodeRequest (BitOStream.make []) header = .ok (e', s', encoded) ∧
      e'.lookupTable.dynamicPart = entries := by
  unfold ends at h
  split at h
  · rename_i e' s' encoded' hrun
    obtain ⟨rfl, rfl⟩ := Prod.mk.inj (Option.some.inj h)
    exact ⟨e', s', hrun, rfl⟩
  · cases h

end Encoder

end HPack

end QtBase
