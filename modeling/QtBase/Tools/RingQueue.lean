import QtBase.Tools.RingBuffer
import Mathlib.Tactic.Ring

/-! The bytes that a `QRingBuffer` holds, and what each member function does to them. -/
namespace QtBase.QRingBuffer

open QRingChunk List

variable {b b' : QRingBuffer} {s : List UInt8}

/-- The buffer holds the bytes of `s`. New blocks are new: no chunk and nobody else has them. -/
structure Holds (b : QRingBuffer) (s : List UInt8) : Prop where
  bytes : b.buffers.flatMap live = s
  bufferSize : b.bufferSize = s.length
  fresh : ∀ c ∈ b.buffers, ∀ block, c.chunk.block = some block → block < b.nextBlock
  unowned : ∀ block, b.nextBlock ≤ block → b.others block = 0

/-! ## Owners of a block -/

variable {c : QRingChunk}

theorem isShared_eq_false {ref : ℕ → ℕ} :
    c.isShared ref = false ↔ ∃ block, c.chunk.block = some block ∧ ref block = 1 := by
  unfold isShared QByteArray.isDetached
  cases c.chunk.block <;> simp

theorem count_append (l l' : List QRingChunk) (block : ℕ) :
    count (l ++ l') block = count l block + count l' block := countP_append

theorem count_cons (c : QRingChunk) (l : List QRingChunk) (block : ℕ) :
    count (c :: l) block = count l block + if c.chunk.block = some block then 1 else 0 := by
  unfold count
  rw [countP_cons]
  simp

theorem count_replace {c' : QRingChunk} (h : c'.chunk.block = c.chunk.block)
    (init rest : List QRingChunk) (block : ℕ) :
    count (init ++ c' :: rest) block = count (init ++ c :: rest) block := by
  rw [count_append, count_append, count_cons, count_cons, h]

theorem Holds.count_nextBlock (h : b.Holds s) : count b.buffers b.nextBlock = 0 := by
  unfold count
  rw [countP_eq_zero]
  intro c hc hblock
  have := h.fresh c hc b.nextBlock (by simpa using hblock)
  omega

theorem Holds.isShared_new (h : b.Holds s) (hc : c.chunk.block = some b.nextBlock)
    (init rest : List QRingChunk) (hb : ∀ block, count (init ++ rest) block ≤ count b.buffers block)
    (hb' : b'.buffers = init ++ c :: rest) (ho : b'.others = b.others) :
    c.isShared b'.ref = false := by
  rw [isShared_eq_false]
  refine ⟨_, hc, ?_⟩
  have h₁ := hb b.nextBlock
  rw [h.count_nextBlock, count_append] at h₁
  unfold ref
  rw [hb', ho, count_append, count_cons, if_pos hc, h.unowned _ (le_refl _)]
  omega

theorem isShared_replace {c' : QRingChunk} (hc : c'.chunk.block = c.chunk.block)
    (init rest : List QRingChunk) (hb : b.buffers = init ++ c :: rest)
    (hb' : b'.buffers = init ++ c' :: rest) (ho : b'.others = b.others) :
    c'.isShared b'.ref = c.isShared b.ref := by
  have href : b'.ref = b.ref := by
    funext block
    unfold ref
    rw [hb, hb', ho, count_replace hc]
  unfold isShared QByteArray.isDetached
  rw [hc, href]

/-! ## Chunks at both ends -/

variable {rest : List QRingChunk}

theorem modifyFirst_eq (hb : b.buffers = c :: rest) (f : QRingChunk → Exec QRingChunk) :
    b.modifyFirst f = f c >>= fun c => pure { b with buffers := c :: rest } := by
  unfold modifyFirst
  rw [hb]

theorem modifyLast_eq {init : List QRingChunk} (hb : b.buffers = init ++ [c])
    (f : QRingChunk → Exec QRingChunk) :
    b.modifyLast f = f c >>= fun c => pure { b with buffers := init ++ [c] } := by
  unfold modifyLast
  rw [hb, getLast?_concat, dropLast_concat]

variable {bufferSize : ℤ}

/-- One chunk is exchanged for another that has the same block. -/
theorem Holds.replace (h : b.Holds s) (init rest : List QRingChunk) {c' : QRingChunk}
    (hb : b.buffers = init ++ c :: rest) (hc : c'.chunk.block = c.chunk.block) {s' : List UInt8}
    (hs : s' = init.flatMap live ++ (c'.live ++ rest.flatMap live))
    (hsize : bufferSize = s'.length) :
    Holds { b with buffers := init ++ c' :: rest, bufferSize } s' := by
  refine ⟨?_, hsize, ?_, h.unowned⟩
  · rw [hs, flatMap_append, flatMap_cons]
  · intro d hd block hblock
    rw [mem_append, mem_cons] at hd
    rcases hd with hd | rfl | hd
    · exact h.fresh d (by simp [hb, hd]) block hblock
    · exact h.fresh c (by simp [hb]) block (hc ▸ hblock)
    · exact h.fresh d (by simp [hb, hd]) block hblock

/-- Chunks are taken away. -/
theorem Holds.sublist (h : b.Holds s) {l : List QRingChunk} (hl : ∀ c ∈ l, c ∈ b.buffers)
    {s' : List UInt8} (hs : l.flatMap live = s') (hsize : bufferSize = s'.length) :
    Holds { b with buffers := l, bufferSize } s' :=
  ⟨hs, hsize, fun c hc block hblock => h.fresh c (hl c hc) block hblock, h.unowned⟩

/-! ## Dropping bytes -/

theorem Holds.length_eq (h : b.Holds s)
    (hb : b.buffers = c :: rest) : s.length = c.size + (rest.flatMap live).length := by
  rw [← h.bytes, hb, flatMap_cons, length_append, length_live]

theorem Holds.clear (h : b.Holds s) : b.clear.Holds [] := by
  unfold QRingBuffer.clear
  cases hb : b.buffers with
  | nil =>
    have hs : s = [] := by rw [← h.bytes, hb, flatMap_nil]
    subst hs
    exact h
  | cons c rest =>
    refine ⟨by simp [cleared], rfl, ?_, h.unowned⟩
    intro d hd block hblock
    rw [mem_singleton] at hd
    subst hd
    cases hblock

/-- The last chunk keeps its array, or goes. -/
theorem Holds.minify (h : b.Holds s) {chunk : QRingChunk} (hb : b.buffers = [chunk]) :
    (b.minify chunk [chunk.reset]).Holds [] := by
  unfold QRingBuffer.minify
  split_ifs
  · have hs : ([] : List UInt8) = [].flatMap live ++ (chunk.reset.live ++ [].flatMap live) := by
      simp [reset]
    have hc : chunk.reset.chunk.block = chunk.chunk.block := rfl
    exact h.replace [] [] hb hc hs rfl
  · exact h.clear

variable {bytes : ℤ}

theorem freeFrom_spec (b : QRingBuffer) (l : List QRingChunk)
    (h : Holds { b with buffers := l, bufferSize } s) (hle : bytes ≤ bufferSize) :
    ∃ b', freeFrom b l bufferSize bytes = .ok b' ∧ b'.Holds (s.drop bytes.toNat) := by
  induction l generalizing bufferSize bytes s with
  | nil =>
    have hs : s = [] := h.bytes.symm
    subst hs
    have hsize : bufferSize = 0 := h.bufferSize
    unfold freeFrom
    rw [if_neg (by omega)]
    exact ⟨_, rfl, by simpa using h⟩
  | cons chunk rest ih =>
    have hsize : bufferSize = s.length := h.bufferSize
    have hlen := h.length_eq rfl
    have hbytes : chunk.live ++ rest.flatMap live = s := h.bytes
    have hcap := chunk.size_le_capacity
    have hmax := chunk.capacity_le
    unfold freeFrom
    by_cases hpos : bytes > 0
    · rw [if_pos hpos]
      by_cases hlast : rest.length = 0 ∨ chunk.size > bytes
      · rw [if_pos hlast]
        by_cases hall : bufferSize = bytes
        · rw [if_pos hall]
          have hrest : rest = [] := by
            rcases hlast with hlast | hlast
            · exact eq_nil_of_length_eq_zero hlast
            · omega
          subst hrest
          have hdrop : s.drop bytes.toNat = [] := drop_eq_nil_of_le (by omega)
          rw [hdrop]
          exact ⟨_, rfl, h.minify rfl⟩
        · rw [if_neg hall]
          have hin : bytes < chunk.size := by
            rcases hlast with hlast | hlast
            · rw [length_eq_zero_iff] at hlast
              rw [hlast, flatMap_nil, length_nil] at hlen
              omega
            · omega
          obtain ⟨c', hadv, hchunk, htail, hhead⟩ := advance_eq (c := chunk) (by omega) hin
          have hhead' : c'.headOffset = chunk.headOffset + bytes.toNat := by omega
          have hlive := live_of_head hchunk htail hhead'
          have hdrop : s.drop bytes.toNat = c'.live ++ rest.flatMap live := by
            rw [hlive, ← hbytes, drop_append_of_le_length]
            rw [length_live]
            omega
          rw [qAssert_pos (by omega), ok_bind, hadv, ok_bind]
          refine ⟨_, rfl, h.replace [] rest rfl (by rw [hchunk]) hdrop ?_⟩
          simp
          omega
      · rw [if_neg hlast]
        push Not at hlast
        have hrest : Holds { b with buffers := rest, bufferSize := bufferSize - chunk.size }
            (s.drop chunk.size) := by
          have hdrop : s.drop chunk.size = rest.flatMap live := by
            rw [← hbytes, ← length_live, drop_left]
          apply h.sublist (fun c hc => mem_cons_of_mem _ hc) hdrop.symm
          simp
          omega
        have hle' : bytes - chunk.size ≤ bufferSize - chunk.size := by omega
        obtain ⟨b', hrun, hb'⟩ := ih hrest hle'
        refine ⟨b', hrun, ?_⟩
        rw [drop_drop] at hb'
        have hn : chunk.size + (bytes - chunk.size).toNat = bytes.toNat := by omega
        rwa [hn] at hb'
    · rw [if_neg hpos]
      have hzero : bytes.toNat = 0 := by omega
      rw [hzero, drop_zero]
      exact ⟨_, rfl, h⟩

theorem Holds.free (h : b.Holds s) (hle : bytes ≤ b.bufferSize) :
    ∃ b', b.free bytes = .ok b' ∧ b'.Holds (s.drop bytes.toNat) := by
  unfold QRingBuffer.free
  rw [qAssert_pos hle, ok_bind]
  exact freeFrom_spec b b.buffers h hle

theorem chopFrom_spec (b : QRingBuffer) (l : List QRingChunk)
    (h : Holds { b with buffers := l.reverse, bufferSize } s) (hle : bytes ≤ bufferSize) :
    ∃ b', chopFrom b l bufferSize bytes = .ok b' ∧ b'.Holds (s.take (s.length - bytes.toNat)) := by
  induction l generalizing bufferSize bytes s with
  | nil =>
    have hs : s = [] := h.bytes.symm
    subst hs
    have hsize : bufferSize = 0 := h.bufferSize
    unfold chopFrom
    rw [if_neg (by omega)]
    exact ⟨_, rfl, by simpa using h⟩
  | cons chunk rest ih =>
    have hsize : bufferSize = s.length := h.bufferSize
    have hbytes : rest.reverse.flatMap live ++ chunk.live = s := by
      rw [← h.bytes]
      simp
    have hlen : s.length = (rest.reverse.flatMap live).length + chunk.size := by
      rw [← hbytes, length_append, length_live]
    have hcap := chunk.size_le_capacity
    have hmax := chunk.capacity_le
    have htailcap := chunk.tail_le
    unfold chopFrom
    by_cases hpos : bytes > 0
    · rw [if_pos hpos]
      by_cases hlast : rest.length = 0 ∨ chunk.size > bytes
      · rw [if_pos hlast]
        by_cases hall : bufferSize = bytes
        · rw [if_pos hall]
          have hrest : rest = [] := by
            rcases hlast with hlast | hlast
            · exact eq_nil_of_length_eq_zero hlast
            · omega
          subst hrest
          have htake : s.length - bytes.toNat = 0 := by omega
          rw [htake, take_zero]
          exact ⟨_, rfl, h.minify rfl⟩
        · rw [if_neg hall]
          have hin : bytes < chunk.size := by
            rcases hlast with hlast | hlast
            · rw [length_eq_zero_iff] at hlast
              rw [hlast, reverse_nil, flatMap_nil, length_nil] at hlen
              omega
            · omega
          obtain ⟨c', hgrow, hchunk, hhead, htail⟩ :=
            grow_eq (c := chunk) (show 0 < chunk.size + -bytes by omega) (by unfold capacity; omega)
          have htail' : c'.tailOffset + bytes.toNat = chunk.tailOffset := by omega
          have hlive := live_of_tail hchunk hhead htail'
          have htake : s.take (s.length - bytes.toNat) = rest.reverse.flatMap live ++ c'.live := by
            have hn : s.length - bytes.toNat =
                (rest.reverse.flatMap live).length + (chunk.size - bytes.toNat) := by omega
            rw [hlive, hn, ← hbytes, take_length_add_append]
          rw [qAssert_pos (by omega), ok_bind, hgrow, ok_bind]
          refine ⟨_, rfl, ?_⟩
          rw [reverse_cons]
          apply h.replace rest.reverse [] (reverse_cons ..) (by rw [hchunk])
          · simpa using htake
          · simp
            omega
      · rw [if_neg hlast]
        push Not at hlast
        have hrest : Holds { b with buffers := rest.reverse, bufferSize := bufferSize - chunk.size }
            (s.take (s.length - chunk.size)) := by
          have htake : s.take (s.length - chunk.size) = rest.reverse.flatMap live := by
            have hn : s.length - chunk.size = (rest.reverse.flatMap live).length := by omega
            rw [hn, ← hbytes, take_left]
          refine h.sublist (fun c hc => ?_) htake.symm ?_
          · simp only [reverse_cons, mem_append]
            exact .inl hc
          · simp
            omega
        have hle' : bytes - chunk.size ≤ bufferSize - chunk.size := by omega
        obtain ⟨b', hrun, hb'⟩ := ih hrest hle'
        refine ⟨b', hrun, ?_⟩
        have hn : min (s.length - chunk.size - (bytes - chunk.size).toNat) (s.length - chunk.size) =
            s.length - bytes.toNat := by omega
        rw [length_take, take_take, min_eq_left (Nat.sub_le _ _)] at hb'
        rwa [hn] at hb'
    · rw [if_neg hpos]
      have hzero : s.length - bytes.toNat = s.length := by omega
      rw [hzero, take_length]
      exact ⟨_, rfl, h⟩

theorem Holds.chop (h : b.Holds s) (hle : bytes ≤ b.bufferSize) :
    ∃ b', b.chop bytes = .ok b' ∧ b'.Holds (s.take (s.length - bytes.toNat)) := by
  unfold QRingBuffer.chop
  rw [qAssert_pos hle, ok_bind]
  apply chopFrom_spec b b.buffers.reverse _ hle
  simp [h]

theorem Holds.truncate (h : b.Holds s) {pos : ℤ} (h₀ : 0 ≤ pos) (hle : pos ≤ b.bufferSize) :
    ∃ b', b.truncate pos = .ok b' ∧ b'.Holds (s.take pos.toNat) := by
  have hsize := h.bufferSize
  have hle' : b.bufferSize - pos ≤ b.bufferSize := by omega
  obtain ⟨b', hrun, hb'⟩ := h.chop hle'
  unfold QRingBuffer.truncate
  rw [qAssert_pos ⟨h₀, hle⟩, ok_bind]
  have hn : s.length - (b.bufferSize - pos).toNat = pos.toNat := by omega
  rw [hn] at hb'
  exact ⟨b', hrun, hb'⟩

/-! ## Adding bytes -/

theorem Holds.insertNew (h : b.Holds s) (init rest : List QRingChunk)
    (hsub : ∀ c ∈ init ++ rest, c ∈ b.buffers) (hc : c.chunk.block = some b.nextBlock)
    {s' : List UInt8} (hs : s' = init.flatMap live ++ (c.live ++ rest.flatMap live))
    (hsize : bufferSize = s'.length) :
    Holds { b with buffers := init ++ c :: rest, bufferSize, nextBlock := b.nextBlock + 1 } s' := by
  refine ⟨?_, hsize, ?_, fun block hblock => h.unowned block (Nat.le_of_succ_le hblock)⟩
  · rw [hs, flatMap_append, flatMap_cons]
  · intro d hd block hblock
    show block < b.nextBlock + 1
    rw [mem_append, mem_cons] at hd
    rcases hd with hd | rfl | hd
    · have := h.fresh d (hsub d (mem_append_left _ hd)) block hblock
      omega
    · rw [hc, Option.some.injEq] at hblock
      omega
    · have := h.fresh d (hsub d (mem_append_right _ hd)) block hblock
      omega

theorem Holds.mono (h : b.Holds s) : Holds { b with nextBlock := b.nextBlock + 1 } s := by
  refine ⟨h.bytes, h.bufferSize, fun c hc block hblock => ?_, fun block hblock => ?_⟩
  · exact Nat.lt_succ_of_lt (h.fresh c hc block hblock)
  · exact h.unowned block (Nat.le_of_succ_le hblock)

theorem chunkSize_le (b : QRingBuffer) (hmax : bytes < MaxByteArraySize) :
    max b.basicBlockSize bytes ≤ MaxByteArraySize := by
  have h₁ := b.basicBlockSize_lt
  have h₂ : (2 : ℤ) ^ 31 ≤ MaxByteArraySize := by decide
  omega

theorem count_sublist {l l' : List QRingChunk} (h : l.Sublist l') (block : ℕ) :
    count l block ≤ count l' block := h.countP_le

theorem allocateFirst_spec (memory : ℕ → ℕ → UInt8) (h : b.Holds []) {alloc : ℤ} (hpos : 0 < alloc)
    (hmax : alloc ≤ MaxByteArraySize) : ∃ a b', b.allocateFirst memory alloc = .ok b' ∧
      b'.buffers = unused a :: b.buffers.tail ∧ b'.Holds [] ∧ alloc ≤ a.size ∧
      (unused a).isShared b'.ref = false ∧ b.buffers.tail.flatMap live = [] ∧
      b'.basicBlockSize = b.basicBlockSize := by
  have hflat := h.bytes
  unfold allocateFirst
  cases hb : b.buffers with
  | nil =>
    obtain ⟨a, hnew, hsize, hblock⟩ := new_eq memory b.nextBlock hmax
    have hnew' := h.insertNew (c := unused a) [] [] (by simp) hblock (by simp) h.bufferSize
    simp only [hnew, ok_bind, pure_eq_ok]
    refine ⟨a, _, rfl, rfl, hnew', by omega, ?_, rfl, rfl⟩
    exact h.isShared_new hblock [] [] (fun block => by simp [hb]) rfl rfl
  | cons c rest =>
    rw [hb, flatMap_cons, append_eq_nil_iff] at hflat
    have hzero : c.size = 0 := by rw [← length_live, hflat.1, length_nil]
    obtain ⟨a, halloc, hsize, hblock⟩ := allocate_eq memory b.ref b.nextBlock hmax hpos hzero
    have hs : ([] : List UInt8) = [].flatMap live ++ ((unused a).live ++ rest.flatMap live) := by
      simp [hflat.2]
    simp only [halloc, ok_bind, pure_eq_ok]
    rcases hblock with hblock | ⟨hblock, hshared⟩
    · have hsub : ∀ d ∈ [] ++ rest, d ∈ b.buffers := fun d hd => by
        rw [hb]
        exact mem_cons_of_mem c hd
      refine ⟨a, _, rfl, rfl, h.insertNew [] rest hsub hblock hs h.bufferSize, hsize, ?_, hflat.2, rfl⟩
      exact h.isShared_new hblock [] rest
        (fun block => by rw [hb]; exact count_sublist (sublist_cons_self _ _) block) rfl rfl
    · refine ⟨a, _, rfl, rfl, ?_, hsize, ?_, hflat.2, rfl⟩
      · exact (h.replace [] rest hb hblock hs h.bufferSize).mono
      · rw [← hshared]
        exact isShared_replace hblock [] rest hb rfl rfl

/-- Where `reserve` puts the new bytes: the last chunk is not shared and has room for them. -/
theorem reserveChunk_spec (memory : ℕ → ℕ → UInt8) (h : b.Holds s) (hpos : 0 < bytes)
    (hmax : bytes < MaxByteArraySize) (hroom : b.bufferSize = 0 → b.buffers.length ≤ 1) :
    ∃ b' init c, b.reserveChunk memory bytes = .ok (b', c.size) ∧ b'.Holds s ∧
      b'.buffers = init ++ [c] ∧ c.isShared b'.ref = false ∧ bytes ≤ c.available := by
  have hchunk := b.chunkSize_le hmax
  unfold reserveChunk
  by_cases hzero : b.bufferSize = 0
  · have hs : s = [] := eq_nil_of_length_eq_zero (by have := h.bufferSize; omega)
    subst hs
    obtain ⟨a, b', hrun, hb', hh, hsize, hshared, -, -⟩ :=
      allocateFirst_spec memory h (lt_max_of_lt_right hpos) hchunk
    have htail : b.buffers.tail = [] := by
      apply eq_nil_of_length_eq_zero
      have := hroom hzero
      simp
      omega
    rw [if_pos hzero, hrun, ok_bind]
    refine ⟨b', [], unused a, rfl, hh, by rw [hb', htail]; rfl, hshared, ?_⟩
    show bytes ≤ ((a.size - 0 : ℕ) : ℤ)
    omega
  · rw [if_neg hzero]
    have hne : b.buffers ≠ [] := by
      intro hnil
      have h₁ := h.bytes
      have h₂ := h.bufferSize
      rw [hnil, flatMap_nil] at h₁
      rw [← h₁] at h₂
      exact hzero h₂
    obtain ⟨init, chunk, hb⟩ : ∃ init chunk, b.buffers = init ++ [chunk] :=
      ⟨_, _, (dropLast_append_getLast hne).symm⟩
    simp only [hb, getLast?_concat]
    split_ifs with hnew
    · obtain ⟨a, hrun, hsize, hblock⟩ := new_eq memory b.nextBlock hchunk
      rw [hrun, ok_bind]
      have hlive : s = (init ++ [chunk]).flatMap live ++ ((unused a).live ++ [].flatMap live) := by
        simp [← h.bytes, hb]
      have hsub : ∀ d ∈ (init ++ [chunk]) ++ [], d ∈ b.buffers := fun d hd => by
        rw [append_nil] at hd
        rw [hb]
        exact hd
      refine ⟨_, init ++ [chunk], unused a, rfl,
        h.insertNew (init ++ [chunk]) [] hsub hblock hlive h.bufferSize, rfl, ?_, ?_⟩
      · exact h.isShared_new hblock (init ++ [chunk]) [] (fun block => by rw [append_nil, hb])
          rfl rfl
      · show bytes ≤ ((a.size - 0 : ℕ) : ℤ)
        omega
    · push Not at hnew
      exact ⟨b, init, chunk, rfl, h, hb, by simpa using hnew.2.1, hnew.2.2⟩

theorem data_eq {ref : ℕ → ℕ} (hc : c.isShared ref = false) (block : ℕ) :
    c.data ref block = .ok c := by
  unfold data
  rw [hc]
  rfl

/-- The new bytes are the end of the last chunk, which is not shared. -/
theorem Holds.reserve (memory : ℕ → ℕ → UInt8) (h : b.Holds s) (hpos : 0 < bytes)
    (hmax : bytes < MaxByteArraySize) (hroom : b.bufferSize = 0 → b.buffers.length ≤ 1) :
    ∃ b' init c tail, b.reserve memory bytes = .ok (b', tail) ∧ b'.buffers = init ++ [c] ∧
      c.isShared b'.ref = false ∧ tail + bytes.toNat = c.size ∧
      s = init.flatMap live ++ c.live.take tail ∧ b'.Holds (s ++ c.live.drop tail) := by
  obtain ⟨b₁, init, c, hrun, h₁, hb, hshared, havail⟩ :=
    reserveChunk_spec memory h hpos hmax hroom
  have hcap : (c.tailOffset : ℤ) + bytes ≤ c.capacity := by
    unfold available at havail
    unfold capacity
    have := c.tail_le
    omega
  obtain ⟨c', hgrow, hchunk, hhead, htail⟩ := grow_eq (by omega) hcap
  have htail' : c.tailOffset + bytes.toNat = c'.tailOffset := by omega
  have hsize : c.size + bytes.toNat = c'.size := by
    have := c.head_le
    unfold size
    omega
  have hlive : c.live = c'.live.take c.size := by
    rw [live_of_tail hchunk.symm hhead.symm htail', ← hsize, Nat.add_sub_cancel]
  have hs : s = init.flatMap live ++ c'.live.take c.size := by
    rw [← hlive, ← h₁.bytes, hb, flatMap_append, flatMap_singleton]
  have hb₂ : ({ b₁ with buffers := init ++ [c'], bufferSize := b₁.bufferSize + bytes } :
      QRingBuffer).buffers = init ++ [c'] := rfl
  have hshared' : c'.isShared ({ b₁ with
      buffers := init ++ [c'], bufferSize := b₁.bufferSize + bytes } : QRingBuffer).ref = false := by
    rw [← hshared]
    exact isShared_replace (by rw [hchunk]) init [] hb rfl rfl
  have hfinal : Holds { b₁ with buffers := init ++ [c'], bufferSize := b₁.bufferSize + bytes }
      (s ++ c'.live.drop c.size) := by
    apply h₁.replace init [] hb (by rw [hchunk])
    · simp [hs]
    · rw [length_append, length_drop, length_live, h₁.bufferSize]
      omega
  unfold QRingBuffer.reserve
  rw [qAssert_pos ⟨hpos, hmax⟩, ok_bind, hrun, ok_bind]
  simp only
  rw [modifyLast_eq hb, hgrow, ok_bind, pure_eq_ok, ok_bind]
  unfold dataLast
  rw [modifyLast_eq hb₂, data_eq hshared', ok_bind, pure_eq_ok, ok_bind]
  exact ⟨_, init, c', c.size, rfl, rfl, hshared', hsize, hs, hfinal.mono⟩

theorem writeLast_spec {init : List QRingChunk} {tail : ℕ} {junk : List UInt8}
    (h : b.Holds (s ++ junk)) (hb : b.buffers = init ++ [c]) (hshared : c.isShared b.ref = false)
    (hs : s = init.flatMap live ++ c.live.take tail) {data : List UInt8}
    (hsize : tail + data.length = c.size) :
    ∃ b', b.writeLast tail data = .ok b' ∧ b'.Holds (s ++ data) := by
  obtain ⟨c', hwrite, hblock, hlive⟩ := live_write hshared hsize.le
  rw [hsize, ← length_live, drop_length, append_nil] at hlive
  unfold writeLast
  rw [modifyLast_eq hb, hwrite, ok_bind]
  refine ⟨_, rfl, h.replace init [] hb hblock ?_ ?_⟩
  · simp [hs, hlive]
  · have hlen : (s ++ junk).length = (s ++ data).length := by
      rw [← h.bytes, hb, hs]
      simp only [flatMap_append, flatMap_singleton, length_append, length_live,
        length_take]
      omega
    rw [h.bufferSize, hlen]

theorem growFront_spec (b : QRingBuffer) {a : QByteArray} (hpos : 0 < bytes)
    (hsize : max b.basicBlockSize bytes ≤ a.size) :
    ∃ c, b.growFront bytes (unused a) = .ok c ∧ c.chunk = a ∧ c.size = bytes.toNat := by
  have hle : bytes ≤ max b.basicBlockSize bytes := le_max_right _ _
  have hgrow₁ : 0 < ((unused a).size : ℤ) + max b.basicBlockSize bytes := by
    show 0 < ((0 - 0 : ℕ) : ℤ) + _
    omega
  have hgrow₂ : ((unused a).tailOffset : ℤ) + max b.basicBlockSize bytes ≤ (unused a).capacity := by
    show ((0 : ℕ) : ℤ) + _ ≤ a.size
    omega
  obtain ⟨c, hgrow, hchunk, hhead, htail⟩ := grow_eq hgrow₁ hgrow₂
  have hhead₀ : c.headOffset = 0 := hhead
  have htail₀ : (c.tailOffset : ℤ) = 0 + max b.basicBlockSize bytes := htail
  have hadv : max b.basicBlockSize bytes - bytes < c.size := by
    unfold size
    omega
  obtain ⟨c', hadvance, hchunk', htail', hhead'⟩ := advance_eq (by omega) hadv
  unfold growFront
  rw [hgrow, ok_bind, hadvance]
  refine ⟨c', rfl, hchunk'.trans hchunk, ?_⟩
  unfold size
  omega

theorem reserveFrontChunk_spec (memory : ℕ → ℕ → UInt8) (h : b.Holds s) (hpos : 0 < bytes)
    (hmax : bytes < MaxByteArraySize) :
    ∃ b' c rest, b.reserveFrontChunk memory bytes = .ok b' ∧ b'.buffers = c :: rest ∧
      c.isShared b'.ref = false ∧ bytes.toNat ≤ c.size ∧
      c.live.drop bytes.toNat ++ rest.flatMap live = s ∧
      Holds { b' with bufferSize := b'.bufferSize + bytes } (c.live.take bytes.toNat ++ s) := by
  have hchunk := b.chunkSize_le hmax
  have hlen : ∀ c : QRingChunk, bytes.toNat ≤ c.size →
      ((s.length : ℤ) + bytes) = (c.live.take bytes.toNat ++ s).length := by
    intro c hc
    rw [length_append, length_take, length_live]
    omega
  unfold reserveFrontChunk
  by_cases hzero : b.bufferSize = 0
  · have hs : s = [] := eq_nil_of_length_eq_zero (by have := h.bufferSize; omega)
    subst hs
    obtain ⟨a, b₁, hrun, hb, h₁, hsize, hshared, hrest, hbasic⟩ :=
      allocateFirst_spec memory h (lt_max_of_lt_right hpos) hchunk
    obtain ⟨c, hgrow, hca, hcsize⟩ := b.growFront_spec hpos hsize
    have hdrop : c.live.drop bytes.toNat = [] := by
      rw [← hcsize, ← length_live, drop_length]
    rw [if_pos hzero, hrun, ok_bind, modifyFirst_eq hb, hgrow, ok_bind]
    refine ⟨_, c, b.buffers.tail, rfl, rfl, ?_, hcsize.ge, by rw [hdrop, hrest]; rfl, ?_⟩
    · rw [← hshared]
      exact isShared_replace (by rw [hca]; rfl) [] b.buffers.tail hb rfl rfl
    · apply h₁.replace [] b.buffers.tail hb (by rw [hca]; rfl)
      · rw [hrest, ← hcsize, ← length_live, take_length]
        rfl
      · rw [h₁.bufferSize]
        exact hlen c hcsize.ge
  · rw [if_neg hzero]
    cases hb : b.buffers with
    | nil =>
      have h₁ := h.bytes
      have h₂ := h.bufferSize
      rw [hb, flatMap_nil] at h₁
      rw [← h₁] at h₂
      exact absurd h₂ hzero
    | cons chunk rest =>
      have hbytes : chunk.live ++ rest.flatMap live = s := by rw [← h.bytes, hb, flatMap_cons]
      simp only
      split_ifs with hnew
      · obtain ⟨a, hrun, hsize, hblock⟩ := new_eq memory b.nextBlock hchunk
        have hle : bytes ≤ max b.basicBlockSize bytes := le_max_right _ _
        obtain ⟨c, hgrow, hca, hcsize⟩ := b.growFront_spec (a := a) hpos (by omega)
        have hblock' : c.chunk.block = some b.nextBlock := by rw [hca, hblock]
        have hdrop : c.live.drop bytes.toNat = [] := by
          rw [← hcsize, ← length_live, drop_length]
        rw [hrun, ok_bind, hgrow, ok_bind]
        refine ⟨_, c, chunk :: rest, rfl, rfl, ?_, hcsize.ge, ?_, ?_⟩
        · exact h.isShared_new hblock' [] (chunk :: rest) (fun block => by rw [hb]; rfl) rfl rfl
        · simp [hdrop, hbytes]
        · apply h.insertNew [] (chunk :: rest) (fun d hd => hb ▸ hd) hblock'
          · rw [← hcsize, ← length_live, take_length, flatMap_cons, hbytes]
            rfl
          · rw [h.bufferSize]
            exact hlen c hcsize.ge
      · push Not at hnew
        obtain ⟨-, hshared, hfits⟩ := hnew
        obtain ⟨c, hadvance, hca, htail, hhead⟩ :=
          advance_eq (c := chunk) (show 0 ≤ chunk.headOffset + -bytes by omega) (by omega)
        have hhead' : chunk.headOffset = c.headOffset + bytes.toNat := by omega
        have hlive : chunk.live = c.live.drop bytes.toNat := live_of_head hca.symm htail.symm hhead'
        have hcsize : bytes.toNat ≤ c.size := by
          have := chunk.head_le
          unfold size
          omega
        rw [modifyFirst_eq hb, hadvance, ok_bind]
        refine ⟨_, c, rest, rfl, rfl, ?_, hcsize, by rw [← hlive, hbytes], ?_⟩
        · have hcb : c.chunk.block = chunk.chunk.block := by rw [hca]
          have hsame : c.isShared ({ b with buffers := c :: rest } : QRingBuffer).ref =
              chunk.isShared b.ref := isShared_replace hcb [] rest hb rfl rfl
          rw [hsame]
          simpa using hshared
        · apply h.replace [] rest hb (by rw [hca])
          · rw [← hbytes, hlive, flatMap_nil, nil_append, ← append_assoc,
              take_append_drop]
          · rw [h.bufferSize]
            exact hlen c hcsize

theorem Holds.reserveFront (memory : ℕ → ℕ → UInt8) (h : b.Holds s) (hpos : 0 < bytes)
    (hmax : bytes < MaxByteArraySize) :
    ∃ b' c rest, b.reserveFront memory bytes = .ok b' ∧ b'.buffers = c :: rest ∧
      c.isShared b'.ref = false ∧ bytes.toNat ≤ c.size ∧
      c.live.drop bytes.toNat ++ rest.flatMap live = s ∧
      b'.Holds (c.live.take bytes.toNat ++ s) := by
  obtain ⟨b₁, c, rest, hrun, hb, hshared, hsize, hs, h₁⟩ := reserveFrontChunk_spec memory h hpos hmax
  unfold QRingBuffer.reserveFront dataFirst
  rw [qAssert_pos ⟨hpos, hmax⟩, ok_bind, hrun, ok_bind]
  have hb' : ({ b₁ with bufferSize := b₁.bufferSize + bytes } : QRingBuffer).buffers = c :: rest := hb
  have hshared' : c.isShared ({ b₁ with bufferSize := b₁.bufferSize + bytes } : QRingBuffer).ref =
      false := hshared
  rw [modifyFirst_eq hb', data_eq hshared', ok_bind, pure_eq_ok, ok_bind]
  refine ⟨_, c, rest, rfl, rfl, ?_, hsize, hs, ?_⟩
  · rw [← hshared]
    exact isShared_replace (b := b₁) rfl [] rest hb rfl rfl
  · have hsame : ({ b₁ with bufferSize := b₁.bufferSize + bytes, buffers := c :: rest } :
        QRingBuffer) = { b₁ with bufferSize := b₁.bufferSize + bytes } := by rw [← hb]
    have h₂ := h₁.mono
    rw [← hsame] at h₂
    exact h₂

theorem writeFirst_spec {junk : List UInt8} (data : List UInt8) (h : b.Holds (junk ++ s))
    (hb : b.buffers = c :: rest) (hshared : c.isShared b.ref = false) (hsize : data.length ≤ c.size)
    (hlen : junk.length = data.length) (hs : c.live.drop data.length ++ rest.flatMap live = s) :
    ∃ b', b.writeFirst data = .ok b' ∧ b'.Holds (data ++ s) := by
  have hpos : 0 + data.length ≤ c.size := by omega
  obtain ⟨c', hwrite, hblock, hlive⟩ := live_write hshared hpos
  rw [take_zero, nil_append, Nat.zero_add] at hlive
  rw [Nat.add_zero] at hwrite
  unfold writeFirst
  rw [modifyFirst_eq hb, hwrite, ok_bind]
  refine ⟨_, rfl, h.replace [] rest hb hblock ?_ ?_⟩
  · rw [hlive, ← hs, flatMap_nil, nil_append, append_assoc]
  · rw [h.bufferSize, length_append, length_append, hlen]

theorem one_lt_max : (1 : ℤ) < MaxByteArraySize := by decide

theorem Holds.putChar (memory : ℕ → ℕ → UInt8) (h : b.Holds s) (c : UInt8)
    (hroom : b.bufferSize = 0 → b.buffers.length ≤ 1) :
    ∃ b', b.putChar memory c = .ok b' ∧ b'.Holds (s ++ [c]) := by
  obtain ⟨b₁, init, last, tail, hrun, hb, hshared, hsize, hs, h₁⟩ :=
    h.reserve memory Int.one_pos one_lt_max hroom
  unfold QRingBuffer.putChar
  rw [hrun, ok_bind]
  exact writeLast_spec h₁ hb hshared hs hsize

theorem Holds.ungetChar (memory : ℕ → ℕ → UInt8) (h : b.Holds s) (c : UInt8) :
    ∃ b', b.ungetChar memory c = .ok b' ∧ b'.Holds (c :: s) := by
  obtain ⟨b₁, first, rest, hrun, hb, hshared, hsize, hs, h₁⟩ :=
    h.reserveFront memory Int.one_pos one_lt_max
  unfold QRingBuffer.ungetChar
  rw [hrun, ok_bind]
  apply writeFirst_spec [c] h₁ hb hshared hsize _ hs
  rw [length_take, length_live]
  exact min_eq_left hsize

theorem Holds.append (memory : ℕ → ℕ → UInt8) (h : b.Holds s) {data : List UInt8}
    (hmax : (data.length : ℤ) < MaxByteArraySize)
    (hroom : data ≠ [] → b.bufferSize = 0 → b.buffers.length ≤ 1) :
    ∃ b', b.append memory data = .ok b' ∧ b'.Holds (s ++ data) := by
  unfold QRingBuffer.append
  split_ifs with hnil
  · rw [length_eq_zero_iff] at hnil
    subst hnil
    exact ⟨b, rfl, by simpa using h⟩
  · have hne : data ≠ [] := fun h => hnil (by rw [h]; rfl)
    obtain ⟨b₁, init, last, tail, hrun, hb, hshared, hsize, hs, h₁⟩ :=
      h.reserve memory (by omega) hmax (hroom hne)
    rw [hrun, ok_bind]
    exact writeLast_spec h₁ hb hshared hs (by simpa using hsize)

theorem Holds.appendArray (h : b.Holds s) {qba : QByteArray}
    (hblock : ∀ block, qba.block = some block → block < b.nextBlock) :
    (b.appendArray qba).Holds (s ++ qba.bytes) := by
  have hsize : b.bufferSize + qba.size = (s ++ qba.bytes).length := by
    rw [length_append, h.bufferSize]
    unfold QByteArray.size
    omega
  have hfresh : ∀ l : List QRingChunk, (∀ c ∈ l, c ∈ b.buffers) →
      ∀ c ∈ l ++ [ofArray qba], ∀ block, c.chunk.block = some block → block < b.nextBlock := by
    intro l hl c hc block hcb
    rw [mem_append, mem_singleton] at hc
    rcases hc with hc | rfl
    · exact h.fresh c (hl c hc) block hcb
    · exact hblock block hcb
  unfold QRingBuffer.appendArray
  split_ifs with hnew
  · refine ⟨?_, hsize, hfresh b.buffers fun c hc => hc, h.unowned⟩
    rw [flatMap_append, h.bytes, flatMap_singleton, live_ofArray]
  · push Not at hnew
    have hs : s = [] := eq_nil_of_length_eq_zero (by have := h.bufferSize; omega)
    subst hs
    refine ⟨?_, hsize, hfresh b.buffers.dropLast fun c hc => dropLast_subset _ hc, h.unowned⟩
    have hnil : b.buffers.dropLast.flatMap live = [] := by
      rw [flatMap_eq_nil_iff]
      intro c hc
      exact (flatMap_eq_nil_iff.mp h.bytes) c (dropLast_subset _ hc)
    rw [flatMap_append, hnil, flatMap_singleton, live_ofArray]

theorem Holds.withOthers (h : b.Holds s) {others : ℕ → ℕ}
    (ho : ∀ block, b.nextBlock ≤ block → others block = 0) : Holds { b with others } s :=
  ⟨h.bytes, h.bufferSize, h.fresh, ho⟩

theorem release_unowned {others : ℕ → ℕ} {block : ℕ} (h : others block = 0) (owned : Option ℕ) :
    release others owned block = 0 := by
  unfold release
  rw [h, Nat.zero_sub]

theorem acquire_unowned {others : ℕ → ℕ} {block : ℕ} (h : others block = 0) {owned : Option ℕ}
    (hne : owned ≠ some block) : acquire others owned block = 0 := by
  unfold acquire
  rw [h, if_neg hne]

theorem Holds.appendMoved (h : b.Holds s) {qba : QByteArray}
    (hblock : ∀ block, qba.block = some block → block < b.nextBlock) :
    (b.appendMoved qba).Holds (s ++ qba.bytes) := by
  have happend := h.appendArray hblock
  have hnext : (b.appendArray qba).nextBlock = b.nextBlock := by
    unfold QRingBuffer.appendArray
    split_ifs <;> rfl
  unfold QRingBuffer.appendMoved
  split_ifs
  · apply happend.withOthers
    rw [hnext]
    exact fun block hb => release_unowned (h.unowned block hb) _
  · apply happend.withOthers
    rw [hnext]
    intro block hb
    apply acquire_unowned (release_unowned (h.unowned block hb) _)
    intro hlast
    rw [Option.bind_eq_some_iff] at hlast
    obtain ⟨c, hc, hcb⟩ := hlast
    have := h.fresh c (mem_of_getLast? hc) block hcb
    omega

/-! ## Looking at bytes -/

theorem readPointerFrom_spec (l : List QRingChunk) {pos : ℤ} (hpos : 0 ≤ pos) :
    match readPointerFrom l pos with
    | none => ((l.flatMap live).length : ℤ) ≤ pos
    | some piece => piece ≠ [] ∧ piece <+: (l.flatMap live).drop pos.toNat := by
  induction l generalizing pos with
  | nil => exact hpos
  | cons chunk rest ih =>
    unfold readPointerFrom
    by_cases hlt : chunk.size > pos
    · rw [if_pos hlt]
      refine ⟨?_, rest.flatMap live, ?_⟩
      · rw [← length_pos_iff_ne_nil, length_drop, length_live]
        omega
      · rw [flatMap_cons, drop_append_of_le_length]
        rw [length_live]
        omega
    · rw [if_neg hlt]
      have hpos' : 0 ≤ pos - chunk.size := by omega
      have hrest := ih hpos'
      cases hp : readPointerFrom rest (pos - chunk.size) with
      | none =>
        rw [hp] at hrest
        simp only [flatMap_cons, length_append, length_live]
        simp only at hrest
        omega
      | some piece =>
        rw [hp] at hrest
        simp only at hrest ⊢
        have hn : pos.toNat = chunk.live.length + (pos - chunk.size).toNat := by
          rw [length_live]
          omega
        rw [hn, flatMap_cons, drop_length_add_append]
        exact hrest

/-- The first occurrence among the bytes from `pos` on, `maxLength` of them at most. -/
def firstIndex (s : List UInt8) (c : UInt8) (maxLength pos : ℤ) : ℤ :=
  match ((s.drop pos.toNat).take maxLength.toNat).idxOf? c with
  | some i => i + pos
  | none => -1

variable {maxLength : ℤ}

theorem indexOfFrom_spec (c : UInt8) (pos : ℤ) (l : List QRingChunk) {index : ℤ}
    (hmax : 0 < maxLength) (hindex : index < maxLength) :
    indexOfFrom c maxLength pos l index =
      match (((l.flatMap live).drop (-index).toNat).take (maxLength - max index 0).toNat).idxOf? c with
      | some i => i + max index 0 + pos
      | none => -1 := by
  induction l generalizing index with
  | nil => simp [indexOfFrom]
  | cons chunk rest ih =>
    have hlen := chunk.length_live
    unfold indexOfFrom
    simp only [flatMap_cons]
    obtain ⟨next, hn, hcases⟩ : ∃ next, next = min (index + chunk.size) maxLength ∧
        (next = index + chunk.size ∧ next ≤ maxLength ∨
          next = maxLength ∧ next ≤ index + chunk.size) := ⟨_, rfl, by omega⟩
    obtain ⟨from₀, hm, hfrom⟩ : ∃ from₀, from₀ = max index 0 ∧
        (from₀ = index ∧ 0 ≤ index ∨ from₀ = 0 ∧ index < 0) := ⟨_, rfl, by omega⟩
    rw [← hn, ← hm]
    by_cases hnext : next > 0
    · rw [if_pos hnext]
      -- the part that `memchr` sees, and what is left for the next chunks
      have hwhole : ((chunk.live ++ rest.flatMap live).drop (-index).toNat).take
          (maxLength - from₀).toNat =
            (chunk.live.drop (-index).toNat).take (next - from₀).toNat ++
              (rest.flatMap live).take (maxLength - next).toNat := by
        have hfst : (chunk.live.drop (-index).toNat).take (maxLength - from₀).toNat =
            (chunk.live.drop (-index).toNat).take (next - from₀).toNat := by
          rcases hcases with ⟨heq, hle⟩ | ⟨heq, hle⟩
          · have hlen' : (chunk.live.drop (-index).toNat).length = (next - from₀).toNat := by
              simp
              omega
            rw [← hlen', take_length, take_of_length_le]
            omega
          · rw [heq]
        have hsnd : (maxLength - from₀).toNat - (chunk.size - (-index).toNat) =
            (maxLength - next).toNat := by omega
        rw [drop_append_of_le_length (by omega), take_append, length_drop, hlen,
          hfst, hsnd]
      have hseg : ((chunk.live.drop (-index).toNat).take (next - from₀).toNat).length =
          (next - from₀).toNat := by
        simp
        omega
      simp only [hwhole, List.idxOf?, findIdx?_append, hseg]
      cases List.findIdx? (fun x => x == c)
          ((chunk.live.drop (-index).toNat).take (next - from₀).toNat) with
      | some i => rfl
      | none =>
        simp only [Option.none_or]
        by_cases hend : next = maxLength
        · simp [hend]
        · rw [if_neg hend, ih (by omega)]
          have hzero : (-next).toNat = 0 := by omega
          have hpos : max next 0 = next := by omega
          rw [hzero, hpos, drop_zero, List.idxOf?]
          cases List.findIdx? (fun x => x == c) ((rest.flatMap live).take
              (maxLength - next).toNat) with
          | none => rfl
          | some i =>
            have hle : from₀ ≤ next := by omega
            simp only [Option.map_some]
            rw [Nat.cast_add, Int.toNat_of_nonneg (Int.sub_nonneg.mpr hle)]
            ring
    · rw [if_neg hnext, ih (by omega)]
      have hdrop : (-index).toNat = chunk.live.length + (-next).toNat := by omega
      have hmax₁ : max next 0 = 0 := by omega
      have hmax₂ : from₀ = 0 := by omega
      rw [hdrop, drop_length_add_append, hmax₁, hmax₂]

theorem Holds.indexOf (h : b.Holds s) (c : UInt8) {pos : ℤ} (h₁ : 0 ≤ maxLength)
    (h₂ : 0 ≤ pos) : b.indexOf c maxLength pos = .ok (firstIndex s c maxLength pos) := by
  unfold QRingBuffer.indexOf firstIndex
  rw [qAssert_pos ⟨h₁, h₂⟩, ok_bind]
  by_cases hzero : maxLength = 0
  · simp [hzero]
  · rw [if_neg hzero, indexOfFrom_spec c pos b.buffers (by omega) (by omega), h.bytes]
    have hmax : max (-pos) 0 = 0 := by omega
    rw [neg_neg, hmax, Int.sub_zero]
    simp

theorem peekFrom_spec (l : List QRingChunk) {pos : ℤ} (hpos : 0 ≤ pos) {data : List UInt8}
    (hdata : data.length ≤ maxLength) : peekFrom maxLength l pos data =
      data ++ ((l.flatMap live).drop pos.toNat).take (maxLength - data.length).toNat := by
  induction l generalizing pos data with
  | nil => simp [peekFrom]
  | cons chunk rest ih =>
    have hlen := chunk.length_live
    unfold peekFrom
    rw [flatMap_cons]
    by_cases hfull : data.length = maxLength
    · simp [hfull]
    · rw [if_neg hfull]
      by_cases hlt : pos < chunk.size
      · have htake : (chunk.live.drop pos.toNat).take
            (min (chunk.size - pos) (maxLength - data.length)).toNat =
              (chunk.live.drop pos.toNat).take (maxLength - data.length).toNat := by
          rcases le_total ((chunk.size : ℤ) - pos) (maxLength - data.length) with hle | hle
          · rw [min_eq_left hle, take_of_length_le, take_of_length_le]
            · rw [length_drop]
              omega
            · rw [length_drop]
              omega
          · rw [min_eq_right hle]
        rw [if_pos hlt, htake, ih (le_refl 0)]
        · rw [drop_append_of_le_length (by omega), take_append, append_assoc,
            Int.toNat_zero, drop_zero, length_append, length_take]
          congr 3
          omega
        · rw [length_append, length_take]
          omega
      · rw [if_neg hlt, ih (by omega) hdata]
        have hn : pos.toNat = chunk.live.length + (pos - chunk.size).toNat := by omega
        rw [hn, drop_length_add_append]

theorem Holds.peek (h : b.Holds s) {pos : ℤ} (h₁ : 0 ≤ maxLength) (h₂ : 0 ≤ pos) :
    b.peek maxLength pos = .ok ((s.drop pos.toNat).take maxLength.toNat) := by
  unfold QRingBuffer.peek
  rw [qAssert_pos ⟨h₁, h₂⟩, ok_bind, peekFrom_spec b.buffers h₂ (by simpa using h₁), h.bytes]
  simp

/-! ## Taking bytes -/

/-- No chunk without bytes comes before the end of the first `n` bytes. -/
def Unblocked : List QRingChunk → ℕ → Prop
  | [], _ => True
  | c :: rest, n => n = 0 ∨ 0 < c.size ∧ Unblocked rest (n - c.size)

theorem unblocked_zero (l : List QRingChunk) : Unblocked l 0 := by
  cases l with
  | nil => trivial
  | cons c rest => exact .inl rfl

theorem freeFrom_zero (b : QRingBuffer) (l : List QRingChunk) (bufferSize : ℤ) :
    freeFrom b l bufferSize 0 = .ok { b with buffers := l, bufferSize } := by
  cases l <;> rfl

theorem free_first (hb : b.buffers = c :: rest) (hpos : 0 < c.size) (hne : rest ≠ [])
    (hle : c.size ≤ b.bufferSize) :
    b.free c.size = .ok { b with buffers := rest, bufferSize := b.bufferSize - c.size } := by
  have hlen : rest.length ≠ 0 := fun h => hne (eq_nil_of_length_eq_zero h)
  unfold QRingBuffer.free
  rw [qAssert_pos hle, ok_bind, hb]
  unfold freeFrom
  rw [if_pos (by omega), if_neg (by omega), Int.sub_self, freeFrom_zero]

theorem Holds.exists_cons (h : b.Holds s) (hne : s ≠ []) :
    b.bufferSize ≠ 0 ∧ ∃ c rest, b.buffers = c :: rest := by
  have hsize := h.bufferSize
  have hbytes := h.bytes
  have hlen := length_pos_iff_ne_nil.mpr hne
  refine ⟨by omega, ?_⟩
  cases hb : b.buffers with
  | nil =>
    rw [hb, flatMap_nil] at hbytes
    exact absurd hbytes.symm hne
  | cons c rest => exact ⟨c, rest, rfl⟩

theorem readFrom_spec {bytesToRead : ℤ} (k : ℕ) {data : List UInt8} (h : b.Holds s) {n : ℕ}
    (hn : data.length + n = bytesToRead) (hle : n ≤ s.length) (hk : n < k)
    (hun : Unblocked b.buffers n) : ∃ b', readFrom bytesToRead k b data =
      .ok (b', data ++ s.take n) ∧ b'.Holds (s.drop n) := by
  induction k generalizing b s data n with
  | zero => omega
  | succ k ih =>
    unfold readFrom
    by_cases hzero : n = 0
    · subst hzero
      rw [if_neg (by omega), take_zero, append_nil, drop_zero]
      exact ⟨b, rfl, h⟩
    · have hne : s ≠ [] := by
        rw [← length_pos_iff_ne_nil]
        omega
      obtain ⟨hsize, c, rest, hb⟩ := h.exists_cons hne
      have hbytes : c.live ++ rest.flatMap live = s := by rw [← h.bytes, hb, flatMap_cons]
      have hlen := h.length_eq hb
      have hlive := c.length_live
      have htotal := h.bufferSize
      obtain ⟨hpos, hunrest⟩ : 0 < c.size ∧ Unblocked rest (n - c.size) := by
        rw [hb] at hun
        exact hun.resolve_left hzero
      have hnext : b.nextDataBlockSize = .ok (c.size : ℤ) := by
        unfold nextDataBlockSize
        simp [hsize, hb]
      have hpiece : ∀ m : ℤ, b.readPointer m = .ok (c.live.take m.toNat) := by
        intro m
        unfold readPointer
        rw [hb]
        rfl
      rw [if_pos (by omega), hnext, ok_bind]
      simp only [hpiece, ok_bind]
      have hrest : bytesToRead - data.length = n := by omega
      rw [hrest]
      by_cases hfst : n ≤ c.size
      · -- the first chunk has all that is left to read
        have hmin : min (n : ℤ) c.size = n := by omega
        have hfree : (n : ℤ) ≤ b.bufferSize := by omega
        have htake : c.live.take n = s.take n := by
          rw [← hbytes, take_append_of_le_length (by omega)]
        obtain ⟨b₁, hrun, h₁⟩ := h.free hfree
        rw [Int.toNat_natCast] at h₁
        rw [hmin, hrun, ok_bind, Int.toNat_natCast, htake]
        have hdone : ((data ++ s.take n).length : ℤ) + (0 : ℕ) = bytesToRead := by
          simp
          omega
        obtain ⟨b', hrun', h'⟩ := ih h₁ hdone (Nat.zero_le _) (by omega) (unblocked_zero _)
        rw [take_zero, append_nil] at hrun'
        exact ⟨b', hrun', h'⟩
      · have hmin : min (n : ℤ) c.size = c.size := by omega
        have hrestne : rest ≠ [] := by
          intro hnil
          rw [hnil, flatMap_nil, length_nil] at hlen
          omega
        have hdrop : s.drop c.size = rest.flatMap live := by
          rw [← hbytes, ← hlive, drop_left]
        have htake : s.take n = c.live ++ (s.drop c.size).take (n - c.size) := by
          rw [hdrop, ← hbytes, take_append, take_of_length_le (by omega), hlive]
        have h₁ : Holds { b with buffers := rest, bufferSize := b.bufferSize - c.size }
            (s.drop c.size) := by
          refine h.sublist (fun d hd => ?_) hdrop.symm ?_
          · rw [hb]
            exact mem_cons_of_mem c hd
          · simp
            omega
        have hcopy : c.live.take c.size = c.live := by rw [← hlive, take_length]
        have hleft : ((data ++ c.live).length : ℤ) + (n - c.size : ℕ) = bytesToRead := by
          simp
          omega
        have hle' : n - c.size ≤ (s.drop c.size).length := by
          simp
          omega
        rw [hmin, free_first hb hpos hrestne (by omega), ok_bind, Int.toNat_natCast, hcopy]
        obtain ⟨b', hrun', h'⟩ := ih h₁ hleft hle' (by omega) hunrest
        rw [append_assoc, ← htake] at hrun'
        rw [drop_drop] at h'
        have hsum : c.size + (n - c.size) = n := by omega
        rw [hsum] at h'
        exact ⟨b', hrun', h'⟩

/-- How many bytes `read` takes. -/
def readLength (s : List UInt8) (maxLength : ℤ) : ℕ := (min (s.length : ℤ) maxLength).toNat

theorem Holds.read (h : b.Holds s)
    (hun : Unblocked b.buffers (readLength s maxLength)) : ∃ b', b.read maxLength =
      .ok (b', s.take (readLength s maxLength)) ∧ b'.Holds (s.drop (readLength s maxLength)) := by
  unfold QRingBuffer.read readLength at *
  rw [h.bufferSize]
  simp only
  rcases le_or_gt 0 maxLength with hpos | hneg
  · have hn : (([] : List UInt8).length : ℤ) + (min (s.length : ℤ) maxLength).toNat =
        min (s.length : ℤ) maxLength := by
      simp
      omega
    exact readFrom_spec _ h hn (by omega) (by omega) hun
  · have hmin : min (s.length : ℤ) maxLength = maxLength := by omega
    have hzero : maxLength.toNat = 0 := by omega
    rw [hmin, hzero, take_zero, drop_zero]
    unfold readFrom
    rw [if_neg (by rw [length_nil]; omega)]
    exact ⟨b, rfl, h⟩

theorem Holds.readFirst (h : b.Holds s) :
    ∃ b' n, b.readFirst = .ok (b', s.take n) ∧ b'.Holds (s.drop n) := by
  unfold QRingBuffer.readFirst
  by_cases hsize : b.bufferSize = 0
  · have hs : s = [] := eq_nil_of_length_eq_zero (by have := h.bufferSize; omega)
    subst hs
    rw [if_pos hsize]
    exact ⟨b, 0, rfl, h⟩
  · have hne : s ≠ [] := by
      rintro rfl
      exact hsize h.bufferSize
    obtain ⟨-, c, rest, hb⟩ := h.exists_cons hne
    have hbytes : c.live ++ rest.flatMap live = s := by rw [← h.bytes, hb, flatMap_cons]
    have hlive := c.length_live
    have htake : s.take c.size = c.live := by rw [← hbytes, ← hlive, take_left]
    have hdrop : rest.flatMap live = s.drop c.size := by rw [← hbytes, ← hlive, drop_left]
    have hlen := h.length_eq hb
    have hsub : ∀ d ∈ rest, d ∈ b.buffers := by
      intro d hd
      rw [hb]
      exact mem_cons_of_mem c hd
    have h₁ : Holds { b with buffers := rest, bufferSize := b.bufferSize - c.size }
        (s.drop c.size) := by
      apply h.sublist hsub hdrop
      rw [length_drop, h.bufferSize]
      omega
    rw [if_neg hsize, hb]
    simp only [bytes_toByteArray, ← htake, pure_eq_ok]
    refine ⟨_, c.size, rfl, h₁.mono.withOthers ?_⟩
    intro block hblock
    have hblock' : b.nextBlock + 1 ≤ block := hblock
    apply acquire_unowned (h.unowned block (by omega))
    intro hown
    rcases c.block_toByteArray b.ref b.nextBlock with hnew | hnew | hold
    · rw [hnew, Option.some.injEq] at hown
      omega
    · rw [hnew] at hown
      cases hown
    · rw [hold] at hown
      have := h.fresh c (by rw [hb]; exact mem_cons_self ..) block hown
      omega

theorem Holds.getChar_nil (h : b.Holds []) : b.getChar = .ok (b, -1) := by
  unfold QRingBuffer.getChar isEmpty
  have hsize : (b.bufferSize == 0) = true := beq_iff_eq.mpr h.bufferSize
  rw [hsize]
  rfl

theorem Holds.getChar_cons {x : UInt8} (h : b.Holds (x :: s)) (hun : Unblocked b.buffers 1) :
    ∃ b', b.getChar = .ok (b', (x.toNat : ℤ)) ∧ b'.Holds s := by
  obtain ⟨hsize, c, rest, hb⟩ := h.exists_cons (cons_ne_nil x s)
  have hpos : 0 < c.size := by
    rw [hb] at hun
    exact (hun.resolve_left Nat.one_ne_zero).1
  have htotal := h.bufferSize
  have hbytes : c.live ++ rest.flatMap live = x :: s := by rw [← h.bytes, hb, flatMap_cons]
  have hget : c.chunk.byteAt c.headOffset = .ok x := by
    apply byteAt_head hpos
    have hfst : (c.live ++ rest.flatMap live)[0]? = some x := by
      rw [hbytes]
      rfl
    rwa [getElem?_append_left (by rw [length_live]; exact hpos)] at hfst
  have hone : (1 : ℤ) ≤ b.bufferSize := by
    omega
  obtain ⟨b', hrun, h'⟩ := h.free hone
  have hempty : b.isEmpty = false := beq_eq_false_iff_ne.mpr hsize
  unfold QRingBuffer.getChar
  rw [hempty, hb]
  simp only [Bool.false_eq_true, if_false, hget, hrun, ok_bind, pure_eq_ok]
  exact ⟨b', rfl, h'⟩

theorem Holds.skip (h : b.Holds s) (length : ℤ) :
    ∃ b', b.skip length = .ok (b', min length s.length) ∧
      b'.Holds (s.drop (min length s.length).toNat) := by
  unfold QRingBuffer.skip
  rw [← h.bufferSize]
  obtain ⟨b', hrun, h'⟩ := h.free (min_le_right length b.bufferSize)
  simp only [hrun, ok_bind, pure_eq_ok]
  exact ⟨b', rfl, h'⟩

/-- How far a line goes: up to its first newline, or as far as there is room for. -/
def lineLength (s : List UInt8) (maxLength : ℤ) : ℕ :=
  match (s.take (maxLength - 1).toNat).idxOf? 10 with
  | some i => i + 1
  | none => readLength s (maxLength - 1)

theorem Holds.readLine (h : b.Holds s) (hmax : 1 < maxLength)
    (hun : Unblocked b.buffers (lineLength s maxLength)) :
    ∃ b', b.readLine maxLength = .ok (b', s.take (lineLength s maxLength)) ∧
      b'.Holds (s.drop (lineLength s maxLength)) := by
  have hindex := h.indexOf 10 (show 0 ≤ maxLength - 1 by omega) (le_refl 0)
  unfold QRingBuffer.readLine
  rw [qAssert_pos hmax, ok_bind, hindex, ok_bind]
  have hlength : lineLength s maxLength = readLength s
      (if firstIndex s 10 (maxLength - 1) 0 ≥ 0 then firstIndex s 10 (maxLength - 1) 0 + 1
        else maxLength - 1) := by
    unfold lineLength firstIndex
    rw [Int.toNat_zero, drop_zero]
    cases hi : (s.take (maxLength - 1).toNat).idxOf? 10 with
    | none => rfl
    | some i =>
      have hlt : i < (s.take (maxLength - 1).toNat).length := by
        obtain ⟨hlt, -⟩ := idxOf?_eq_some_iff.mp hi
        exact hlt
      rw [length_take] at hlt
      simp only [Int.add_zero]
      rw [if_pos (Int.natCast_nonneg i)]
      unfold readLength
      omega
  rw [hlength] at hun ⊢
  exact h.read hun

end QtBase.QRingBuffer
