import QtBase.Network.HttpChunked

/-! Where in a chunked body the reply stands, and what one call of `readReplyBodyChunked` reads. -/
namespace QtBase.Http

open Reading List

variable {last next : List UInt8} {longMax : ℤ}

/-- What follows the chunks before `cs`: the other chunks, the end of the body and what comes after
it. -/
def restOf (last next : List UInt8) (cs : List Chunk) : List UInt8 :=
  chunkBytes (last ++ crlf ++ (crlf ++ next)) cs

def sizeLine (last : List UInt8) : List Chunk → List UInt8
  | [] => last
  | c :: _ => c.line

def afterLine (last next : List UInt8) : List Chunk → List UInt8
  | [] => crlf ++ next
  | c :: cs => c.data ++ crlf ++ restOf last next cs

def chunkSize : List Chunk → ℕ
  | [] => 0
  | c :: _ => c.data.length

theorem restOf_eq (cs : List Chunk) :
    restOf last next cs = sizeLine last cs ++ crlf ++ afterLine last next cs := by
  cases cs <;> simp [restOf, sizeLine, afterLine, chunkBytes]

theorem wellFormed_sizeLine (hlast : SizeLine last 0) (cs : List Chunk) :
    SizeLine (sizeLine last cs) (chunkSize cs) := by
  cases cs with
  | nil => exact hlast
  | cons c cs => exact c.wellFormed

/-- The sizes of the chunks are numbers of type `long`. -/
def Fits (longMax : ℤ) (cs : List Chunk) : Prop := ∀ c ∈ cs, (c.data.length : ℤ) ≤ longMax

theorem Fits.chunkSize {cs : List Chunk} (h : Fits longMax cs) (h0 : 0 ≤ longMax) :
    (Http.chunkSize cs : ℤ) ≤ longMax := by
  cases cs with
  | nil => exact h0
  | cons c cs => exact h c (by simp)

namespace QHttpNetworkReplyPrivate

/-- Nothing went wrong, and more is to come. -/
structure Open (d : QHttpNetworkReplyPrivate) : Prop where
  state : d.state ≠ .AllDoneState
  force : d.forceConnectionCloseEnabled = false

end QHttpNetworkReplyPrivate

open QHttpNetworkReplyPrivate

/-- Inside the data of a chunk, `piece` of which is still to be read, or right behind it. -/
inductive Between (last next : List UInt8) (longMax : ℤ) (d : QHttpNetworkReplyPrivate)
    (coming data : List UInt8) : Prop
  | behind (cs : List Chunk) (hopen : d.Open) (hlast : d.lastChunkRead = false)
      (hfits : Fits longMax cs) (hread : d.currentChunkRead ≥ d.currentChunkSize)
      (hfragment : d.fragment = []) (hcoming : coming = crlf ++ restOf last next cs)
      (hdata : data = chunkData cs)
  | inside (piece : List UInt8) (cs : List Chunk) (hopen : d.Open) (hlast : d.lastChunkRead = false)
      (hfits : Fits longMax cs) (hread : d.currentChunkSize = d.currentChunkRead + piece.length)
      (h0 : 0 ≤ d.currentChunkRead) (hne : piece ≠ []) (hfragment : d.fragment = [])
      (hcoming : coming = piece ++ crlf ++ restOf last next cs)
      (hdata : data = piece ++ chunkData cs)

/-- Where the reply stands between two calls: `coming` are the bytes of the stream that are not
read, `data` what is to be appended for them. -/
inductive Stands (last next : List UInt8) (longMax : ℤ) (d : QHttpNetworkReplyPrivate)
    (coming data : List UInt8) : Prop
  | line (pre w : List UInt8) (cs : List Chunk) (hopen : d.Open) (hlast : d.lastChunkRead = false)
      (hfits : Fits longMax cs) (hread : d.currentChunkRead ≥ d.currentChunkSize)
      (hpre : LineEndRest pre) (hfragment : d.fragment ++ w = pre ++ sizeLine last cs ++ [cr])
      (hcoming : coming = w ++ lf :: afterLine last next cs) (hdata : data = chunkData cs)
  | inside (piece : List UInt8) (cs : List Chunk) (hopen : d.Open) (hlast : d.lastChunkRead = false)
      (hfits : Fits longMax cs) (hread : d.currentChunkSize = d.currentChunkRead + piece.length)
      (h0 : 0 ≤ d.currentChunkRead) (hne : piece ≠ []) (hfragment : d.fragment = [])
      (hcoming : coming = piece ++ crlf ++ restOf last next cs)
      (hdata : data = piece ++ chunkData cs)
  | ending (hopen : d.Open) (hlast : d.lastChunkRead = true) (hcoming : coming = crlf ++ next)
      (hdata : data = [])
  | endingLf (hopen : d.Open) (hlast : d.lastChunkRead = true) (hcoming : coming = lf :: next)
      (hdata : data = [])
  | done (hstate : d.state = .AllDoneState) (hforce : d.forceConnectionCloseEnabled = false)
      (hcoming : coming = next) (hdata : data = [])

variable {d : QHttpNetworkReplyPrivate} {data : List UInt8}

theorem Between.stands {coming : List UInt8}
    (h : Between last next longMax d coming data) : Stands last next longMax d coming data := by
  cases h with
  | behind cs hopen hlast hfits hread hfragment hcoming hdata =>
    refine .line crlf (crlf ++ sizeLine last cs ++ [cr]) cs hopen hlast hfits hread
      (.inr (.inl rfl)) (by simp [hfragment]) ?_ hdata
    rw [hcoming, restOf_eq]
    simp [crlf]
  | inside piece cs hopen hlast hfits hread h0 hne hfragment hcoming hdata =>
    exact .inside piece cs hopen hlast hfits hread h0 hne hfragment hcoming hdata

theorem Between.not_last {coming : List UInt8}
    (h : Between last next longMax d coming data) : d.lastChunkRead = false := by
  cases h <;> assumption

/-- From `x` the call came to `x'`: it took bytes from the front, and what it appended comes first
of what was to be appended. -/
structure Reads (last next : List UInt8) (longMax : ℤ) (future : List UInt8) (x : Reading)
    (data : List UInt8) (x' : Reading) : Prop where
  eaten : ∃ eaten, x.socket = eaten ++ x'.socket
  limit : x'.d.readBufferMaxSize = x.d.readBufferMaxSize
  appended : ∃ o data', x'.out = x.out ++ o ∧ data = o ++ data' ∧
    Stands last next longMax x'.d (x'.socket ++ future) data'
  /-- When the end of the body is awaited, nothing waits. -/
  quiet : x'.d.lastChunkRead = true → x'.d.state ≠ .AllDoneState → x'.socket = []

theorem Reads.trans {future o data₁ eaten : List UInt8} {x x₁ x' : Reading}
    (h : Reads last next longMax future x₁ data₁ x') (hsocket : x.socket = eaten ++ x₁.socket)
    (hlimit : x₁.d.readBufferMaxSize = x.d.readBufferMaxSize) (hout : x₁.out = x.out ++ o)
    (hdata : data = o ++ data₁) : Reads last next longMax future x data x' := by
  obtain ⟨⟨eaten', h₁⟩, h₂, ⟨o', data', hout', hdata', hst⟩, hquiet⟩ := h
  exact ⟨⟨eaten ++ eaten', by rw [hsocket, h₁, append_assoc]⟩, h₂.trans hlimit,
    ⟨o ++ o', data', by rw [hout', hout, append_assoc],
      by rw [hdata, hdata', append_assoc], hst⟩, hquiet⟩

variable {out socket : List UInt8}

section Loop

variable {x x₁ : Reading} {k : ℕ}

theorem chunkedLoop_return (hsocket : x.socket ≠ [])
    (hlimit : ¬ (x.d.readBufferMaxSize ≠ 0 ∧ x.bytes > x.d.readBufferMaxSize))
    (hbegin : x.beginChunk longMax = (x₁, false)) : chunkedLoop longMax (k + 1) x = .ok x₁ := by
  rw [chunkedLoop, if_neg hsocket, if_neg hlimit, hbegin]
  rfl

theorem chunkedLoop_finish (hsocket : x.socket ≠ [])
    (hlimit : ¬ (x.d.readBufferMaxSize ≠ 0 ∧ x.bytes > x.d.readBufferMaxSize))
    (hbegin : x.beginChunk longMax = (x₁, true))
    (hend : x₁.d.currentChunkSize = 0 ∨ x₁.d.lastChunkRead) :
    chunkedLoop longMax (k + 1) x = .ok x₁.finish := by
  rw [chunkedLoop, if_neg hsocket, if_neg hlimit, hbegin]
  dsimp only
  rw [if_neg (by simp), if_pos hend]

theorem chunkedLoop_more {n : ℤ} (hsocket : x.socket ≠ [])
    (hlimit : ¬ (x.d.readBufferMaxSize ≠ 0 ∧ x.bytes > x.d.readBufferMaxSize))
    (hbegin : x.beginChunk longMax = (x₁, true))
    (hend : ¬ (x₁.d.currentChunkSize = 0 ∨ x₁.d.lastChunkRead))
    (hraw : readReplyBodyRaw x₁.d x₁.socket x₁.out (x₁.d.currentChunkSize - x₁.d.currentChunkRead) = .ok (n, socket, out)) :
    chunkedLoop longMax (k + 1) x = chunkedLoop longMax k { x₁ with
      d := { x₁.d with currentChunkRead := x₁.d.currentChunkRead + n }
      socket, out, bytes := x₁.bytes + n } := by
  rw [chunkedLoop, if_neg hsocket, if_neg hlimit, hbegin]
  dsimp only
  rw [if_neg (by simp), if_neg hend, hraw, ok_bind]

end Loop

/-- The bytes that wait come before those that are still to arrive: either they reach behind
`piece`, or they are a part of it. -/
theorem split_waiting {piece after future : List UInt8} (h : socket ++ future = piece ++ after) :
    (∃ socket', socket = piece ++ socket' ∧ socket' ++ future = after) ∨
    (∃ piece', piece' ≠ [] ∧ piece = socket ++ piece' ∧ future = piece' ++ after) := by
  rcases append_eq_append_iff.mp h with ⟨piece', hpiece, hfuture⟩ | ⟨socket', hs, hafter⟩
  · by_cases hnil : piece' = []
    · subst hnil
      exact .inl ⟨[], by simpa using hpiece.symm, by simpa using hfuture⟩
    · exact .inr ⟨piece', hnil, hpiece, hfuture⟩
  · exact .inl ⟨socket', hs, hafter.symm⟩

theorem inside_more {future piece : List UInt8} {cs : List Chunk} (hmax : 0 ≤ d.readBufferMaxSize)
    (hopen : d.Open) (hlast : d.lastChunkRead = false) (hfits : Fits longMax cs)
    (hread : d.currentChunkSize = d.currentChunkRead + piece.length) (h0 : 0 ≤ d.currentChunkRead)
    (hfragment : d.fragment = [])
    (hcoming : socket ++ future = piece ++ crlf ++ restOf last next cs) :
    ∃ o socket' piece', readReplyBodyRaw d socket out (d.currentChunkSize - d.currentChunkRead) =
        .ok ((o.length : ℤ), socket', out ++ o) ∧
      socket = o ++ socket' ∧ piece = o ++ piece' ∧ (o = [] → socket = [] ∨ piece = []) ∧
      Between last next longMax { d with currentChunkRead := d.currentChunkRead + o.length }
        (socket' ++ future) (piece' ++ chunkData cs) := by
  have hsize : d.currentChunkSize - d.currentChunkRead = (piece.length : ℤ) := by omega
  rw [hsize, readReplyBodyRaw_spec hmax (by omega), Int.toNat_natCast]
  rw [append_assoc] at hcoming
  rcases split_waiting hcoming with ⟨socket', rfl, hafter⟩ | ⟨piece', hne, rfl, hfuture⟩
  · refine ⟨piece, socket', [], ?_, rfl, by simp, fun h => .inr h, ?_⟩
    · rw [Int.min_eq_left (by rw [length_append]; omega), drop_left' rfl,
        take_left' rfl]
    · exact .behind cs ⟨hopen.state, hopen.force⟩ hlast hfits (by simp [hread]) hfragment hafter rfl
  · refine ⟨socket, [], piece', ?_, by simp, rfl, fun h => .inl h, ?_⟩
    · rw [Int.min_eq_right (by rw [length_append]; omega), drop_eq_nil_of_le (by simp),
        take_of_length_le (by simp)]
    · refine .inside piece' cs ⟨hopen.state, hopen.force⟩ hlast hfits ?_ ?_ hne hfragment ?_ rfl
      · simp [hread]
        omega
      · dsimp only
        omega
      · rw [hfuture, nil_append, append_assoc]

theorem getChunkSize_line {x : Reading} {future pre w : List UInt8} {cs : List Chunk}
    (hlastLine : SizeLine last 0) (h0 : 0 ≤ longMax) (hfits : Fits longMax cs)
    (hsmall : (x.socket.length : ℤ) < 2 ^ 31) (hpre : LineEndRest pre)
    (hfragment : x.d.fragment ++ w = pre ++ sizeLine last cs ++ [cr])
    (hcoming : x.socket ++ future = w ++ lf :: afterLine last next cs) :
    (∃ eaten socket', x.socket = eaten ++ socket' ∧ eaten ≠ [] ∧
      socket' ++ future = afterLine last next cs ∧ x.getChunkSize longMax =
        ⟨{ x.d with fragment := [], currentChunkSize := chunkSize cs }, socket', x.out,
          x.bytes + eaten.length⟩) ∨
    (∃ w', w = x.socket ++ w' ∧ x.getChunkSize longMax =
        ⟨{ x.d with fragment := x.d.fragment ++ x.socket, currentChunkSize := -1 }, [], x.out,
          x.bytes + x.socket.length⟩) := by
  rcases getChunkSize_spec hpre (wellFormed_sizeLine hlastLine cs) (hfits.chunkSize h0) hsmall
    hfragment hcoming with ⟨socket', hrun, hsocket, hafter⟩ | ⟨w', hrun, hw⟩
  · refine .inl ⟨w ++ [lf], socket', by simp [hsocket], by simp, hafter, ?_⟩
    have hlen : (x.socket.length : ℤ) - socket'.length = (w ++ [lf]).length := by
      simp [hsocket]
      omega
    rw [Reading.getChunkSize, hrun, ← hlen]
  · exact .inr ⟨w', hw, by rw [Reading.getChunkSize, hrun]⟩

theorem finish_ending {x : Reading} {future : List UInt8} (hopen : x.d.Open)
    (hcoming : x.socket ++ future = crlf ++ next) :
    Reads last next longMax future x [] x.finish := by
  have hne : cr ≠ lf := by decide
  match hs : x.socket with
  | [] =>
    have hfinish : x.finish = { x with d := { x.d with lastChunkRead := true } } := by
      simp [finish, hs, crlf]
    rw [hs] at hcoming
    rw [hfinish]
    exact ⟨⟨[], rfl⟩, rfl, ⟨[], [], by simp, rfl, .ending ⟨hopen.state, hopen.force⟩ rfl
      (by simpa [hs] using hcoming) rfl⟩, fun _ _ => hs⟩
  | [c] =>
    obtain ⟨rfl, hfuture⟩ : c = cr ∧ future = lf :: next := by simpa [hs, crlf] using hcoming
    have hfinish : x.finish = { x with
        d := { x.d with lastChunkRead := true }
        socket := [], bytes := x.bytes + 1 } := by
      simp [finish, hs, crlf, hne]
    rw [hfinish]
    exact ⟨⟨[cr], by simp [hs]⟩, rfl, ⟨[], [], by simp, rfl,
      .endingLf ⟨hopen.state, hopen.force⟩ rfl (by simpa using hfuture) rfl⟩, fun _ _ => rfl⟩
  | c :: c' :: socket =>
    obtain ⟨rfl, rfl, hnext⟩ : c = cr ∧ c' = lf ∧ socket ++ future = next := by
      simpa [hs, crlf] using hcoming
    have hfinish : x.finish = { x with
        d := { x.d with lastChunkRead := true, state := .AllDoneState }
        socket, bytes := x.bytes + 2 } := by
      simp [finish, hs, crlf]
    rw [hfinish]
    exact ⟨⟨[cr, lf], by simp [hs]⟩, rfl, ⟨[], [], by simp, rfl, .done rfl hopen.force hnext rfl⟩,
      fun _ hstate => absurd rfl hstate⟩

theorem finish_endingLf {x : Reading} {future : List UInt8} (hopen : x.d.Open)
    (hs : x.socket = [lf]) (hcoming : x.socket ++ future = lf :: next) :
    Reads last next longMax future x [] x.finish := by
  have hfinish : x.finish = { x with
      d := { x.d with lastChunkRead := true, state := .AllDoneState }
      socket := [], bytes := x.bytes + 1 } := by
    simp [finish, hs, crlf]
  rw [hfinish]
  exact ⟨⟨[lf], by simp [hs]⟩, rfl, ⟨[], [], by simp, rfl,
    .done rfl hopen.force (by simpa [hs] using hcoming) rfl⟩, fun _ _ => rfl⟩

/-- The loop ends as it should when `k` turns are left and some bytes were read in this call. -/
def LoopReads (last next : List UInt8) (longMax : ℤ) (future : List UInt8) (k : ℕ) : Prop :=
  ∀ {x : Reading} {data : List UInt8}, x.socket.length < k → (x.socket.length : ℤ) < 2 ^ 31 →
    0 < x.bytes → 0 ≤ x.d.readBufferMaxSize →
    Between last next longMax x.d (x.socket ++ future) data →
    ∃ x', chunkedLoop longMax k x = .ok x' ∧ Reads last next longMax future x data x'

section Turn

variable {k : ℕ} {x x₁ : Reading} {future : List UInt8} {cs : List Chunk}

theorem turn_inside {piece : List UInt8} (ih : LoopReads last next longMax future k)
    (hsocket : x.socket ≠ [])
    (hlimit : ¬ (x.d.readBufferMaxSize ≠ 0 ∧ x.bytes > x.d.readBufferMaxSize))
    (hbegin : x.beginChunk longMax = (x₁, true)) (hopen : x₁.d.Open)
    (hlast : x₁.d.lastChunkRead = false) (hfits : Fits longMax cs) (hfragment : x₁.d.fragment = [])
    (hread : x₁.d.currentChunkSize = x₁.d.currentChunkRead + piece.length)
    (h0 : 0 ≤ x₁.d.currentChunkRead) (hne : piece ≠ [])
    (hk : x₁.socket.length ≤ k) (hsmall : (x₁.socket.length : ℤ) < 2 ^ 31)
    (hbytes : 0 ≤ x₁.bytes)
    (hmoves : x₁.socket ≠ [] ∨ (x₁.socket.length < k ∧ 0 < x₁.bytes))
    (hmax : 0 ≤ x₁.d.readBufferMaxSize)
    (hcoming : x₁.socket ++ future = piece ++ crlf ++ restOf last next cs) :
    ∃ x', chunkedLoop longMax (k + 1) x = .ok x' ∧
      Reads last next longMax future x₁ (piece ++ chunkData cs) x' ∧
      (x₁.socket ≠ [] → x'.socket.length < x₁.socket.length) := by
  have hpos : 0 < piece.length := length_pos_iff.mpr hne
  obtain ⟨o, socket, piece', hraw, hs, hpiece, ho, hbetween⟩ :=
    inside_more hmax hopen hlast hfits hread h0 hfragment hcoming
  have hlen : x₁.socket.length = o.length + socket.length := by rw [hs, length_append]
  have hopos : x₁.socket ≠ [] → 0 < o.length := fun h => length_pos_iff.mpr fun hnil =>
    (ho hnil).elim h hne
  rw [chunkedLoop_more hsocket hlimit hbegin (by rw [hlast]; simp; omega) hraw]
  have hmoved : socket.length < k ∧ 0 < x₁.bytes + o.length := by
    rcases hmoves with h | h
    · have := hopos h
      omega
    · omega
  obtain ⟨x', hrun, hreads⟩ := ih (x := ⟨{ x₁.d with
    currentChunkRead := x₁.d.currentChunkRead + o.length }, socket, x₁.out ++ o,
    x₁.bytes + o.length⟩) hmoved.1 (by dsimp only; omega) hmoved.2 hmax hbetween
  refine ⟨x', hrun, hreads.trans hs rfl rfl (by rw [hpiece, append_assoc]), fun h => ?_⟩
  obtain ⟨eaten, heaten⟩ := hreads.eaten
  have hlen' := congrArg List.length heaten
  have := hopos h
  rw [length_append] at hlen'
  dsimp only at hlen'
  omega

theorem turn_afterLine (ih : LoopReads last next longMax future k) (hsocket : x.socket ≠ [])
    (hlimit : ¬ (x.d.readBufferMaxSize ≠ 0 ∧ x.bytes > x.d.readBufferMaxSize))
    (hbegin : x.beginChunk longMax = (x₁, true)) (hopen : x₁.d.Open)
    (hlast : x₁.d.lastChunkRead = false) (hfits : Fits longMax cs) (hfragment : x₁.d.fragment = [])
    (hread : x₁.d.currentChunkRead = 0) (hsize : x₁.d.currentChunkSize = chunkSize cs)
    (hk : x₁.socket.length < k) (hsmall : (x₁.socket.length : ℤ) < 2 ^ 31) (hbytes : 0 < x₁.bytes)
    (hmax : 0 ≤ x₁.d.readBufferMaxSize)
    (hcoming : x₁.socket ++ future = afterLine last next cs) :
    ∃ x', chunkedLoop longMax (k + 1) x = .ok x' ∧
      Reads last next longMax future x₁ (chunkData cs) x' := by
  cases cs with
  | nil =>
    exact ⟨_, chunkedLoop_finish hsocket hlimit hbegin (.inl hsize), finish_ending hopen hcoming⟩
  | cons c cs =>
    obtain ⟨x', hrun, hreads, -⟩ := @turn_inside last next longMax k x x₁ future cs c.data ih
      hsocket hlimit hbegin hopen hlast (fun d hd => hfits d (mem_cons_of_mem _ hd)) hfragment
      (by rw [hsize, hread, Int.zero_add]; rfl) (by omega) c.ne_nil (by omega) hsmall (by omega)
      (.inr ⟨hk, hbytes⟩) hmax hcoming
    exact ⟨x', hrun, hreads⟩

theorem turn_line {x₂ : Reading} {pre w : List UInt8} (hlastLine : SizeLine last 0)
    (hlong : 0 ≤ longMax) (ih : LoopReads last next longMax future k) (hsocket : x.socket ≠ [])
    (hlimit : ¬ (x.d.readBufferMaxSize ≠ 0 ∧ x.bytes > x.d.readBufferMaxSize))
    (hbegin : x.beginChunk longMax =
      (x₂.getChunkSize longMax, decide ((x₂.getChunkSize longMax).d.currentChunkSize ≠ -1)))
    (hopen : x₂.d.Open) (hlast : x₂.d.lastChunkRead = false) (hfits : Fits longMax cs)
    (hread : x₂.d.currentChunkRead = 0) (hpre : LineEndRest pre)
    (hfragment : x₂.d.fragment ++ w = pre ++ sizeLine last cs ++ [cr])
    (hk : x₂.socket.length ≤ k) (hsmall : (x₂.socket.length : ℤ) < 2 ^ 31) (hbytes : 0 ≤ x₂.bytes)
    (hmax : 0 ≤ x₂.d.readBufferMaxSize)
    (hcoming : x₂.socket ++ future = w ++ lf :: afterLine last next cs) :
    ∃ x', chunkedLoop longMax (k + 1) x = .ok x' ∧
      Reads last next longMax future x₂ (chunkData cs) x' ∧
      (x₂.socket ≠ [] → x'.socket.length < x₂.socket.length) := by
  rcases getChunkSize_line hlastLine hlong hfits hsmall hpre hfragment hcoming with
    ⟨eaten, socket, hs, hne, hafter, hrun⟩ | ⟨w', hw, hrun⟩
  · have hlen : x₂.socket.length = eaten.length + socket.length := by rw [hs, length_append]
    have hpos : 0 < eaten.length := length_pos_iff.mpr hne
    rw [hrun, decide_eq_true (show ((chunkSize cs : ℕ) : ℤ) ≠ -1 by omega)] at hbegin
    obtain ⟨x', hloop, hreads⟩ := turn_afterLine ih hsocket hlimit hbegin
      ⟨hopen.state, hopen.force⟩ hlast hfits rfl hread rfl (by dsimp only; omega)
      (by dsimp only; omega) (by dsimp only; omega) hmax hafter
    refine ⟨x', hloop, hreads.trans hs rfl (append_nil _).symm rfl, fun _ => ?_⟩
    obtain ⟨eaten', heaten'⟩ := hreads.eaten
    have hlen' := congrArg List.length heaten'
    rw [length_append] at hlen'
    dsimp only at hlen'
    omega
  · rw [hrun, decide_eq_false (by simp)] at hbegin
    refine ⟨_, chunkedLoop_return hsocket hlimit hbegin,
      ⟨⟨x₂.socket, by simp⟩, rfl, ⟨[], chunkData cs, by simp, rfl,
        .line pre w' cs ⟨hopen.state, hopen.force⟩ hlast hfits ?_ hpre ?_ ?_ rfl⟩,
        fun _ _ => rfl⟩, ?_⟩
    · dsimp only
      omega
    · rw [append_assoc, ← hw, hfragment]
    · rw [hw, append_assoc] at hcoming
      exact append_cancel_left hcoming
    · exact fun h => length_pos_iff.mpr h

end Turn

theorem loopReads (hlastLine : SizeLine last 0) (hlong : 0 ≤ longMax) (future : List UInt8)
    (k : ℕ) : LoopReads last next longMax future k := by
  induction k with
  | zero => exact fun hk => absurd hk (Nat.not_lt_zero _)
  | succ k ih =>
    intro x data hk hsmall hbytes hmax h
    have hstay : Reads last next longMax future x data x :=
      ⟨⟨[], rfl⟩, rfl, ⟨[], data, by simp, rfl, h.stands⟩,
        fun hlast => by simp [h.not_last] at hlast⟩
    by_cases hsocket : x.socket = []
    · exact ⟨x, by rw [chunkedLoop, if_pos hsocket], hstay⟩
    by_cases hlimit : x.d.readBufferMaxSize ≠ 0 ∧ x.bytes > x.d.readBufferMaxSize
    · exact ⟨x, by rw [chunkedLoop, if_neg hsocket, if_pos hlimit], hstay⟩
    cases h with
    | inside piece cs hopen hlast hfits hread h0 hne hfragment hcoming hdata =>
      have hpos : 0 < piece.length := length_pos_iff.mpr hne
      have hbegin : x.beginChunk longMax = (x, true) := by rw [beginChunk, if_neg (by omega)]
      obtain ⟨x', hrun, hreads, -⟩ := turn_inside ih hsocket hlimit hbegin hopen hlast hfits
        hfragment hread h0 hne (by omega) hsmall (by omega) (.inl hsocket) hmax hcoming
      exact ⟨x', hrun, hdata ▸ hreads⟩
    | behind cs hopen hlast hfits hread hfragment hcoming hdata =>
      have hbetween : ¬ x.d.lastChunkRead ∧ x.d.currentChunkRead ≥ x.d.currentChunkSize :=
        ⟨by simp [hlast], hread⟩
      match hs : x.socket with
      | [] => exact absurd hs hsocket
      | [c] =>
        -- the carriage return is dropped, and the line begins with the line feed
        obtain ⟨rfl, hfuture⟩ : c = cr ∧ future = lf :: restOf last next cs := by
          simpa [hs, crlf] using hcoming
        have hbegin : x.beginChunk longMax = (⟨{ x.d with
            currentChunkSize := 0, currentChunkRead := 0 }, [], x.out, x.bytes⟩, false) := by
          rw [beginChunk, if_pos hbetween]
          dsimp only
          rw [if_pos (by omega), hs]
          rfl
        refine ⟨_, chunkedLoop_return hsocket hlimit hbegin,
          ⟨⟨[cr], by simp [hs]⟩, rfl, ⟨[], data, by simp, rfl,
            .line [lf] ([lf] ++ sizeLine last cs ++ [cr]) cs ⟨hopen.state, hopen.force⟩ hlast hfits
              le_rfl (.inr (.inr rfl)) ?_ ?_ hdata⟩, fun _ _ => rfl⟩⟩
        · rw [hfragment, nil_append]
        · rw [hfuture, restOf_eq]
          simp [crlf]
      | c :: c' :: socket =>
        obtain ⟨rfl, rfl, hrest⟩ : c = cr ∧ c' = lf ∧ socket ++ future = restOf last next cs := by
          simpa [hs, crlf] using hcoming
        have hbegin : x.beginChunk longMax = (Reading.getChunkSize longMax ⟨{ x.d with
            currentChunkSize := 0, currentChunkRead := 0 }, socket, x.out, x.bytes + 2⟩,
            decide ((Reading.getChunkSize longMax ⟨{ x.d with
              currentChunkSize := 0, currentChunkRead := 0 }, socket, x.out,
              x.bytes + 2⟩).d.currentChunkSize ≠ -1)) := by
          rw [beginChunk, if_pos hbetween]
          dsimp only
          rw [if_pos (by omega), hs]
          rfl
        rw [hs, length_cons, length_cons] at hk hsmall
        have hline : x.d.fragment ++ (sizeLine last cs ++ [cr]) =
            [] ++ sizeLine last cs ++ [cr] := by simp [hfragment]
        have heaten : x.socket = [cr, lf] ++ socket := hs
        obtain ⟨x', hrun, hreads, -⟩ := turn_line hlastLine hlong ih hsocket hlimit hbegin
          ⟨hopen.state, hopen.force⟩ hlast hfits rfl (.inl rfl) hline (by dsimp only; omega)
          (by dsimp only; omega) (by dsimp only; omega) hmax
          (by dsimp only; rw [hrest, restOf_eq]; simp [crlf])
        exact ⟨x', hrun, hdata ▸ hreads.trans heaten rfl (append_nil _).symm rfl⟩

theorem beginChunk_fresh (h : ¬ d.lastChunkRead ∧ d.currentChunkRead ≥ d.currentChunkSize) :
    (Reading.mk d socket out 0).beginChunk longMax = (Reading.getChunkSize longMax ⟨{ d with
      currentChunkSize := 0, currentChunkRead := 0 }, socket, out, 0⟩,
      decide ((Reading.getChunkSize longMax ⟨{ d with
        currentChunkSize := 0, currentChunkRead := 0 }, socket, out,
        0⟩).d.currentChunkSize ≠ -1)) := by
  rw [beginChunk, if_pos h]
  rfl

/-- A call may be made when the bytes that wait can be counted by an `int`, and when only the line
feed of the body's end is awaited, it waits alone. -/
structure Calm (d : QHttpNetworkReplyPrivate) (waiting : List UInt8) : Prop where
  small : (waiting.length : ℤ) < 2 ^ 31
  alone : ¬ (d.lastChunkRead = true ∧ waiting.head? = some lf ∧ 2 ≤ waiting.length)

theorem readReplyBodyChunked_spec {future : List UInt8} (hlastLine : SizeLine last 0)
    (hlong : 0 ≤ longMax) (hlimit : 0 ≤ d.readBufferMaxSize) (hstate : d.state ≠ .AllDoneState)
    (hcalm : Calm d socket) (hsocket : socket ≠ [])
    (h : Stands last next longMax d (socket ++ future) data) :
    ∃ x', readReplyBodyChunked longMax d socket out = .ok x' ∧
      Reads last next longMax future ⟨d, socket, out, 0⟩ data x' ∧
      x'.socket.length < socket.length := by
  have ih : LoopReads last next longMax future socket.length :=
    loopReads hlastLine hlong future socket.length
  have hbreak : ¬ (d.readBufferMaxSize ≠ 0 ∧ (0 : ℤ) > d.readBufferMaxSize) := by omega
  have hpos : 0 < socket.length := length_pos_iff.mpr hsocket
  cases h with
  | line pre w cs hopen hlast hfits hread hpre hfragment hcoming hdata =>
    obtain ⟨x', hrun, hreads, hless⟩ := turn_line hlastLine hlong ih hsocket hbreak
      (beginChunk_fresh ⟨by simp [hlast], hread⟩) ⟨hopen.state, hopen.force⟩ hlast hfits rfl hpre
      hfragment le_rfl hcalm.small le_rfl hlimit hcoming
    exact ⟨x', hrun, hdata ▸ hreads.trans (nil_append _).symm rfl (append_nil _).symm rfl,
      hless hsocket⟩
  | inside piece cs hopen hlast hfits hread h0 hne hfragment hcoming hdata =>
    have hlen : 0 < piece.length := length_pos_iff.mpr hne
    have hbegin : (Reading.mk d socket out 0).beginChunk longMax = (⟨d, socket, out, 0⟩, true) := by
      rw [beginChunk, if_neg (by dsimp only; omega)]
    obtain ⟨x', hrun, hreads, hless⟩ := turn_inside ih hsocket hbreak hbegin hopen hlast hfits
      hfragment hread h0 hne le_rfl hcalm.small le_rfl (.inl hsocket) hlimit hcoming
    exact ⟨x', hrun, hdata ▸ hreads, hless hsocket⟩
  | ending hopen hlast hcoming hdata =>
    have hbegin : (Reading.mk d socket out 0).beginChunk longMax = (⟨d, socket, out, 0⟩, true) := by
      rw [beginChunk, if_neg (by simp [hlast])]
    refine ⟨_, chunkedLoop_finish hsocket hbreak hbegin (.inr hlast),
      hdata ▸ finish_ending hopen hcoming, ?_⟩
    rw [finish_socket, length_drop]
    dsimp only
    omega
  | endingLf hopen hlast hcoming hdata =>
    have hbegin : (Reading.mk d socket out 0).beginChunk longMax = (⟨d, socket, out, 0⟩, true) := by
      rw [beginChunk, if_neg (by simp [hlast])]
    have hs : socket = [lf] := by
      obtain ⟨c, rest, rfl⟩ := exists_cons_of_ne_nil hsocket
      obtain ⟨rfl, -⟩ : c = lf ∧ rest ++ future = next := by simpa using hcoming
      cases rest with
      | nil => rfl
      | cons c' rest => exact absurd ⟨hlast, rfl, by simp⟩ hcalm.alone
    refine ⟨_, chunkedLoop_finish hsocket hbreak hbegin (.inr hlast),
      hdata ▸ finish_endingLf hopen hs hcoming, ?_⟩
    rw [finish_socket, length_drop]
    dsimp only
    omega
  | done hstate' hforce hcoming hdata => exact absurd hstate' hstate

theorem Stands.remaining {coming : List UInt8}
    (h : Stands last next longMax d coming data) : d.forceConnectionCloseEnabled = false ∧
      ∃ more, coming = more ++ next ∧ (d.state = .AllDoneState ↔ more = []) ∧
        (more = [] → data = []) := by
  have hrest : ∀ cs, ∃ more, restOf last next cs = more ++ next := by
    intro cs
    induction cs with
    | nil => exact ⟨last ++ crlf ++ crlf, by simp [restOf, chunkBytes]⟩
    | cons c cs ih =>
      obtain ⟨more, hmore⟩ := ih
      refine ⟨c.line ++ crlf ++ (c.data ++ crlf ++ more), ?_⟩
      rw [restOf, chunkBytes, ← restOf, hmore]
      simp
  cases h with
  | line pre w cs hopen hlast hfits hread hpre hfragment hcoming hdata =>
    obtain ⟨more, hmore⟩ : ∃ more, afterLine last next cs = more ++ next := by
      cases cs with
      | nil => exact ⟨crlf, rfl⟩
      | cons c cs =>
        obtain ⟨more, hmore⟩ := hrest cs
        exact ⟨c.data ++ crlf ++ more, by rw [afterLine, hmore]; simp⟩
    exact ⟨hopen.force, w ++ lf :: more, by rw [hcoming, hmore]; simp, by simp [hopen.state],
      by simp⟩
  | inside piece cs hopen hlast hfits hread h0 hne hfragment hcoming hdata =>
    obtain ⟨more, hmore⟩ := hrest cs
    exact ⟨hopen.force, piece ++ crlf ++ more, by rw [hcoming, hmore]; simp,
      by simp [hopen.state, crlf], by simp [crlf]⟩
  | ending hopen hlast hcoming hdata =>
    exact ⟨hopen.force, crlf, hcoming, by simp [hopen.state, crlf], fun _ => hdata⟩
  | endingLf hopen hlast hcoming hdata =>
    exact ⟨hopen.force, [lf], hcoming, by simp [hopen.state], fun _ => hdata⟩
  | done hstate hforce hcoming hdata =>
    exact ⟨hforce, [], hcoming, by simp [hstate], fun _ => hdata⟩

end QtBase.Http
