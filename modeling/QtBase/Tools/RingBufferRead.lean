import QtBase.Tools.RingBufferRun

/-! `QRingBuffer::read(char *, qint64)` on every buffer that calls can make, obstructed or not. -/
namespace QtBase.QRingBuffer

open QRingChunk List

/-- What calls with valid arguments can make of a new buffer. -/
inductive Reach (memory : ℕ → ℕ → UInt8) : QRingBuffer → Prop
  | start (growth : ℤ) (h : growth < 2 ^ 31) : Reach memory (empty growth h)
  | call {b b' a} (c : Call) : Reach memory b → c.Valid b → c.run memory b = .ok (b', a) →
      Reach memory b'
  | others {b} (others : ℕ → ℕ) (nextBlock : ℕ) : Reach memory b → b.nextBlock ≤ nextBlock →
      (∀ block < b.nextBlock, b.others block = 0 → others block = 0) →
      (∀ block, nextBlock ≤ block → others block = 0) → Reach memory { b with others, nextBlock }

variable {memory : ℕ → ℕ → UInt8} {b b' : QRingBuffer} {s : List UInt8}

/-! ## What a call leaves is a queue of bytes -/

variable {c : QRingChunk} {data : List UInt8}

theorem size_write {ref : ℕ → ℕ} {c' : QRingChunk} {pos : ℕ}
    (h : c.write ref pos data = .ok c') : c'.chunk.block = c.chunk.block ∧ c'.size = c.size := by
  unfold write at h
  split at h
  · obtain rfl := Except.ok.inj h
    exact ⟨rfl, rfl⟩
  · cases h

theorem grow_ok {c' : QRingChunk} {offset : ℤ} (h : c.grow offset = .ok c') :
    c'.chunk = c.chunk ∧ (c'.size : ℤ) = c.size + offset := by
  have hle := c.head_le
  unfold grow at h
  split at h
  · next hroom =>
    obtain rfl := Except.ok.inj h
    have h₁ := hroom.1
    unfold size at *
    exact ⟨rfl, by simp only; omega⟩
  · cases h

theorem Holds.writeLast_ok (h : b.Holds s) {init : List QRingChunk} (hb : b.buffers = init ++ [c])
    {tail : ℕ} (hrun : b.writeLast tail data = .ok b') : ∃ s', b'.Holds s' := by
  unfold writeLast at hrun
  rw [modifyLast_eq hb] at hrun
  obtain ⟨c', hc, hrun⟩ := bind_eq_ok hrun
  obtain ⟨hblock, hsize⟩ := size_write hc
  obtain rfl := Except.ok.inj hrun
  refine ⟨_, h.replace init [] hb hblock rfl ?_⟩
  have hbytes := congrArg List.length h.bytes
  rw [hb] at hbytes
  simp only [flatMap_append, flatMap_cons, flatMap_nil, append_nil,
    length_append, length_live] at hbytes ⊢
  rw [h.bufferSize, hsize, hbytes]

theorem Holds.dataLast_ok (h : b.Holds s) {init : List QRingChunk} (hb : b.buffers = init ++ [c])
    (hrun : b.dataLast = .ok b') :
    b'.Holds s ∧ ∃ c', b'.buffers = init ++ [c'] := by
  have hs : s = init.flatMap live ++ (c.live ++ [].flatMap live) := by
    rw [← h.bytes, hb, flatMap_append, flatMap_singleton, flatMap_nil,
      append_nil]
  unfold dataLast at hrun
  rw [modifyLast_eq hb] at hrun
  unfold data detach at hrun
  cases hshared : c.isShared b.ref with
  | false =>
    rw [hshared] at hrun
    obtain rfl := Except.ok.inj hrun
    exact ⟨(h.replace init [] hb rfl hs h.bufferSize).mono, c, rfl⟩
  | true =>
    have hsub : ∀ d ∈ init ++ [], d ∈ b.buffers := fun d hd => by
      rw [append_nil] at hd
      rw [hb]
      exact mem_append_left [c] hd
    rw [hshared, if_pos rfl, qAssert_pos rfl] at hrun
    obtain rfl := Except.ok.inj hrun
    have hlive : (ofArray (c.chunk.ofSlice c.headOffset c.size b.nextBlock)).live = c.live := by
      rw [live_ofArray]
      unfold live size QByteArray.ofSlice
      rw [drop_take]
    rw [← hlive] at hs
    by_cases hzero : c.size = 0
    · -- An array without bytes has no block.
      refine ⟨⟨?_, h.bufferSize, fun d hd block hblock => ?_, fun block hblock =>
        h.unowned block (Nat.le_of_succ_le hblock)⟩, _, rfl⟩
      · simp [hs]
      rcases mem_append.mp hd with hd | hd
      · exact Nat.lt_succ_of_lt (h.fresh d (hsub d (mem_append_left [] hd)) block hblock)
      · rw [mem_singleton.mp hd] at hblock
        unfold ofArray QByteArray.ofSlice at hblock
        rw [if_pos hzero] at hblock
        cases hblock
    · have hblock : (ofArray (c.chunk.ofSlice c.headOffset c.size b.nextBlock)).chunk.block =
          some b.nextBlock := if_neg hzero
      exact ⟨h.insertNew init [] hsub hblock hs h.bufferSize, _, rfl⟩

theorem Holds.reserve_ok (h : b.Holds s) {bytes : ℤ} {tail : ℕ}
    (hrun : b.reserve memory bytes = .ok (b', tail)) :
    (∃ s', b'.Holds s') ∧ ∃ init c, b'.buffers = init ++ [c] := by
  by_cases hvalid : bytes > 0 ∧ bytes < MaxByteArraySize
  · by_cases hroom : b.bufferSize = 0 → b.buffers.length ≤ 1
    · obtain ⟨b₁, init, c, t, hrun', hb, -, -, -, h'⟩ := h.reserve memory hvalid.1 hvalid.2 hroom
      rw [hrun] at hrun'
      obtain ⟨rfl, rfl⟩ := Prod.mk.inj (Except.ok.inj hrun')
      exact ⟨⟨_, h'⟩, init, c, hb⟩
    · -- The first chunk gets the room, the last one the bytes.
      push Not at hroom
      obtain ⟨hzero, hlen⟩ := hroom
      have hnil : s = [] := eq_nil_of_length_eq_zero (by have := h.bufferSize; omega)
      subst hnil
      obtain ⟨a, b₁, hfirst, hb₁, h₁, -⟩ := allocateFirst_spec memory h
        (lt_max_of_lt_right hvalid.1) (b.chunkSize_le hvalid.2)
      have htail : b.buffers.tail ≠ [] := by
        intro hnil
        have := congrArg List.length hnil
        rw [length_tail, length_nil] at this
        omega
      have hb : b₁.buffers = (unused a :: b.buffers.tail.dropLast) ++
          [b.buffers.tail.getLast htail] := by
        rw [hb₁, cons_append, dropLast_append_getLast]
      unfold QRingBuffer.reserve reserveChunk at hrun
      rw [qAssert_pos hvalid, ok_bind, if_pos hzero, hfirst, ok_bind, pure_eq_ok, ok_bind] at hrun
      dsimp only at hrun
      rw [modifyLast_eq hb] at hrun
      obtain ⟨b₂, hgrow, hrun⟩ := bind_eq_ok hrun
      obtain ⟨c, hc, hgrow⟩ := bind_eq_ok hgrow
      obtain rfl := Except.ok.inj hgrow
      obtain ⟨b₃, hdata, hrun⟩ := bind_eq_ok hrun
      obtain ⟨rfl, -⟩ := Prod.mk.inj (Except.ok.inj hrun)
      obtain ⟨hchunk, hsize⟩ := grow_ok hc
      have hbytes := congrArg List.length h₁.bytes
      rw [hb] at hbytes
      have hgrown : b₁.bufferSize + bytes = ((unused a :: b.buffers.tail.dropLast).flatMap live ++
          (c.live ++ [].flatMap live)).length := by
        simp only [flatMap_append, flatMap_cons, flatMap_nil, append_nil,
          length_append, length_live, length_nil] at hbytes ⊢
        rw [h₁.bufferSize, length_nil]
        omega
      have h₂ := h₁.replace _ [] hb (by rw [hchunk]) rfl hgrown
      obtain ⟨h₃, c', hb₃⟩ := h₂.dataLast_ok rfl hdata
      exact ⟨⟨_, h₃⟩, _, c', hb₃⟩
  · unfold QRingBuffer.reserve at hrun
    rw [qAssert_neg hvalid, error_bind] at hrun
    cases hrun

theorem Holds.readFrom_ok {bytesToRead : ℤ} (k : ℕ) {r : QRingBuffer × List UInt8} (h : b.Holds s)
    (hrun : readFrom bytesToRead k b data = .ok r) :
    ∃ s', r.1.Holds s' := by
  induction k generalizing b s data with
  | zero => cases hrun
  | succ k ih =>
    unfold readFrom at hrun
    split at hrun
    · obtain ⟨blockSize, -, hrun⟩ := bind_eq_ok hrun
      obtain ⟨piece, -, hrun⟩ := bind_eq_ok hrun
      obtain ⟨b₁, hfree, hrun⟩ := bind_eq_ok hrun
      by_cases hle : min (bytesToRead - data.length) blockSize ≤ b.bufferSize
      · obtain ⟨b₂, hfree', h₂⟩ := h.free hle
        rw [hfree] at hfree'
        obtain rfl := Except.ok.inj hfree'
        exact ih h₂ hrun
      · unfold QRingBuffer.free at hfree
        rw [qAssert_neg hle, error_bind] at hfree
        cases hfree
    · obtain rfl := Except.ok.inj hrun
      exact ⟨s, h⟩

namespace Call

theorem holds_of_run (h : b.Holds s) (c : Call) (hv : c.Valid b) {a : Answer}
    (hrun : c.run memory b = .ok (b', a)) : ∃ s', b'.Holds s' := by
  by_cases hu : c.Unobstructed b
  · obtain ⟨b₁, a₁, s', hrun', h', -⟩ := c.run_spec memory h hv hu
    rw [hrun] at hrun'
    obtain ⟨rfl, rfl⟩ := Prod.mk.inj (Except.ok.inj hrun')
    exact ⟨s', h'⟩
  · cases c with
    | append data =>
      obtain ⟨b₁, happend, hrun⟩ := bind_eq_ok hrun
      obtain ⟨rfl, rfl⟩ := Prod.mk.inj (Except.ok.inj hrun)
      unfold QRingBuffer.append at happend
      split at happend
      · obtain rfl := Except.ok.inj happend
        exact ⟨s, h⟩
      · obtain ⟨⟨b₂, tail⟩, hreserve, hwrite⟩ := bind_eq_ok happend
        obtain ⟨⟨s', h'⟩, init, c, hb⟩ := h.reserve_ok hreserve
        exact h'.writeLast_ok hb hwrite
    | reserve bytes =>
      obtain ⟨⟨b₁, tail⟩, hreserve, hrun⟩ := bind_eq_ok hrun
      obtain ⟨rfl, rfl⟩ := Prod.mk.inj (Except.ok.inj hrun)
      exact (h.reserve_ok hreserve).1
    | putChar ch =>
      obtain ⟨b₁, hput, hrun⟩ := bind_eq_ok hrun
      obtain ⟨rfl, rfl⟩ := Prod.mk.inj (Except.ok.inj hrun)
      obtain ⟨⟨b₂, tail⟩, hreserve, hwrite⟩ := bind_eq_ok hput
      obtain ⟨⟨s', h'⟩, init, c, hb⟩ := h.reserve_ok hreserve
      exact h'.writeLast_ok hb hwrite
    | getChar =>
      obtain ⟨⟨b₁, ch⟩, hget, hrun⟩ := bind_eq_ok hrun
      obtain ⟨rfl, rfl⟩ := Prod.mk.inj (Except.ok.inj hrun)
      unfold QRingBuffer.getChar at hget
      split at hget
      · obtain ⟨rfl, rfl⟩ := Prod.mk.inj (Except.ok.inj hget)
        exact ⟨s, h⟩
      · split at hget
        · cases hget
        · obtain ⟨ch', -, hget⟩ := bind_eq_ok hget
          obtain ⟨b₂, hfree, hget⟩ := bind_eq_ok hget
          obtain ⟨rfl, -⟩ := Prod.mk.inj (Except.ok.inj hget)
          by_cases hle : (1 : ℤ) ≤ b.bufferSize
          · obtain ⟨b₃, hfree', h₃⟩ := h.free hle
            rw [hfree] at hfree'
            obtain rfl := Except.ok.inj hfree'
            exact ⟨_, h₃⟩
          · unfold QRingBuffer.free at hfree
            rw [qAssert_neg hle, error_bind] at hfree
            cases hfree
    | read maxLength =>
      obtain ⟨⟨b₁, data⟩, hread, hrun⟩ := bind_eq_ok hrun
      obtain ⟨rfl, rfl⟩ := Prod.mk.inj (Except.ok.inj hrun)
      exact h.readFrom_ok _ hread
    | readLine maxLength =>
      obtain ⟨⟨b₁, data⟩, hline, hrun⟩ := bind_eq_ok hrun
      obtain ⟨rfl, rfl⟩ := Prod.mk.inj (Except.ok.inj hrun)
      obtain ⟨-, -, hline⟩ := bind_eq_ok hline
      obtain ⟨i, -, hread⟩ := bind_eq_ok hline
      exact h.readFrom_ok _ hread
    | _ => exact absurd trivial hu

end Call

theorem Reach.holds (hreach : Reach memory b) : b.Holds b.content := by
  induction hreach with
  | start growth h => exact ⟨rfl, rfl, fun c hc => absurd hc not_mem_nil, fun _ _ => rfl⟩
  | call c _ hv hrun ih =>
    obtain ⟨s', h'⟩ := c.holds_of_run ih hv hrun
    rw [content, h'.bytes]
    exact h'
  | others others nextBlock _ hle _ hnew ih =>
    exact ⟨rfl, ih.bufferSize, fun c hc block hblock => (ih.fresh c hc block hblock).trans_le hle,
      hnew⟩

/-! ## The loop of `read` -/

theorem Holds.readFrom_succ (h : b.Holds s) {bytesToRead : ℤ} (k : ℕ) {n : ℕ}
    (hn : data.length + n = bytesToRead) (hpos : 0 < n) (hle : n ≤ s.length) :
    ∃ c rest, b.buffers = c :: rest ∧ readFrom bytesToRead (k + 1) b data =
      (b.free (min (n : ℤ) c.size) >>= fun b =>
        readFrom bytesToRead k b (data ++ c.live.take (min (n : ℤ) c.size).toNat)) := by
  have hne : s ≠ [] := by
    rw [← length_pos_iff_ne_nil]
    omega
  obtain ⟨hsize, c, rest, hb⟩ := h.exists_cons hne
  refine ⟨c, rest, hb, ?_⟩
  have hnext : b.nextDataBlockSize = .ok (c.size : ℤ) := by
    unfold nextDataBlockSize
    simp [hsize, hb]
  have hpiece : ∀ m : ℤ, b.readPointer m = .ok (c.live.take m.toNat) := by
    intro m
    unfold readPointer
    rw [hb]
    rfl
  have hrest : bytesToRead - data.length = n := by omega
  rw [readFrom, if_pos (by omega), hnext, ok_bind, hrest]
  simp only [hpiece, ok_bind]

theorem readFrom_diverges {bytesToRead : ℤ} (k : ℕ) (h : b.Holds s) {n : ℕ}
    (hn : data.length + n = bytesToRead) (hle : n ≤ s.length)
    (hblocked : ¬Unblocked b.buffers n) : readFrom bytesToRead k b data = .error .diverge := by
  induction k generalizing b s data n with
  | zero => rfl
  | succ k ih =>
    have hpos : 0 < n := by
      rcases Nat.eq_zero_or_pos n with hzero | hpos
      · rw [hzero] at hblocked
        exact absurd (unblocked_zero b.buffers) hblocked
      · exact hpos
    obtain ⟨c, rest, hb, hstep⟩ := h.readFrom_succ k hn hpos hle
    have htotal := h.bufferSize
    rw [hstep]
    rcases Nat.eq_zero_or_pos c.size with hempty | hfull
    · have hmin : min (n : ℤ) c.size = 0 := by omega
      have hfree : b.free 0 = .ok b := by
        unfold QRingBuffer.free
        rw [qAssert_pos (by omega), ok_bind]
        exact freeFrom_zero b b.buffers b.bufferSize
      rw [hmin, hfree, ok_bind, Int.toNat_zero, take_zero, append_nil]
      exact ih h hn hle hblocked
    · have hrest : ¬Unblocked rest (n - c.size) := by
        rw [hb] at hblocked
        exact fun hun => hblocked (.inr ⟨hfull, hun⟩)
      have hlt : c.size < n := by
        by_contra hge
        rw [Nat.sub_eq_zero_of_le (Nat.le_of_not_lt hge)] at hrest
        exact hrest (unblocked_zero rest)
      have hlen := h.length_eq hb
      have hlive := c.length_live
      have hmin : min (n : ℤ) c.size = c.size := by omega
      have hrestne : rest ≠ [] := by
        intro hnil
        rw [hnil] at hrest
        exact hrest trivial
      have hbytes : s = c.live ++ rest.flatMap live := by rw [← h.bytes, hb, flatMap_cons]
      have hdrop : s.drop c.size = rest.flatMap live := by
        rw [hbytes, ← hlive, drop_left]
      have h₁ : Holds { b with buffers := rest, bufferSize := b.bufferSize - c.size }
          (s.drop c.size) := by
        refine h.sublist (fun d hd => ?_) hdrop.symm ?_
        · rw [hb]
          exact mem_cons_of_mem c hd
        · simp
          omega
      rw [hmin, free_first hb hfull hrestne (by omega), ok_bind]
      refine ih h₁ (n := n - c.size) ?_ ?_ hrest
      · simp
        omega
      · simp
        omega

/-- `read` returns as many bytes as there are and as are asked for, unless a chunk without bytes
comes before the last of them. -/
theorem read_returns_iff {b : QRingBuffer} (hreach : Reach memory b) {maxLength : ℤ}
    (hmax : 0 ≤ maxLength) :
    (∃ b' data, b.read maxLength = .ok (b', data) ∧
      (data.length : ℤ) = min b.bufferSize maxLength) ↔
      Unblocked b.buffers (min b.bufferSize maxLength).toNat := by
  have h := hreach.holds
  have hsize := h.bufferSize
  constructor
  · rintro ⟨b', data, hrun, -⟩
    by_contra hblocked
    unfold QRingBuffer.read at hrun
    rw [readFrom_diverges _ h (n := (min b.bufferSize maxLength).toNat)
      (by rw [length_nil]; omega) (by omega) hblocked] at hrun
    cases hrun
  · intro hun
    have hlength : readLength b.content maxLength = (min b.bufferSize maxLength).toNat := by
      rw [readLength, hsize]
    have hun' : Unblocked b.buffers (readLength b.content maxLength) := hlength ▸ hun
    obtain ⟨b', hrun, -⟩ := h.read hun'
    refine ⟨b', _, hrun, ?_⟩
    simp
    omega

theorem Reach.afterArrays (memory : ℕ → ℕ → UInt8) (arrays : List QByteArray)
    (h : ∀ a ∈ arrays, a.block = none) : Reach memory (afterArrays arrays) := by
  unfold QRingBuffer.afterArrays
  have hstart : Reach memory (empty 4 (by decide)) := Reach.start 4 (by decide)
  generalize empty 4 (by decide) = b at hstart ⊢
  induction arrays generalizing b with
  | nil => exact hstart
  | cons a arrays ih =>
    have hnone : a.block = none := h a (mem_cons_self ..)
    have hv : (Call.appendArray a).Valid b := fun block hblock => by
      rw [hnone] at hblock
      cases hblock
    exact ih (fun a' ha' => h a' (mem_cons_of_mem a ha')) _ (hstart.call _ hv rfl)

theorem read_returns_iff_letters :
    ∃ b' data, (afterArrays [letterA, letterB]).read 2 = .ok (b', data) ∧
      (data.length : ℤ) = min (afterArrays [letterA, letterB]).bufferSize 2 :=
  (read_returns_iff (Reach.afterArrays (fun _ _ => 0) [letterA, letterB]
    (by simp [letterA, letterB])) (by decide)).mpr (.inr ⟨by decide, .inr ⟨by decide, trivial⟩⟩)

/-- An empty array between two others. -/
theorem read_stops_at_empty_array : ∃ b : QRingBuffer, Reach (fun _ _ => 0) b ∧
    b.bufferSize = 2 ∧ b.read 2 = .error .diverge :=
  ⟨afterArrays [letterA, QByteArray.null, letterB],
    Reach.afterArrays _ _ (by simp [letterA, letterB, QByteArray.null]), rfl, rfl⟩

end QtBase.QRingBuffer
