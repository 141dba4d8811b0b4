import UnixOS.Media.ZipExtract

/-! # The two archive readers

Both readers go from one local header to the next. Where a header is complete, stored without
compression, has a short name and is followed by all its bytes, the reader in memory calls its callback;
the streaming reader does the same if the header's sizes are not announced for later. Anything else ends
the reader in memory; on what is cut off after the name, the streaming reader goes on.
-/

namespace UnixOS.Media

open Fs ByteMemory Ramfs

/-! ### Entries by their offset -/

section Entries

variable (D : List UInt8) (off : Nat)

def dataStart : Nat := off + 30 + mediaZipReadU16 D (off + 26) + mediaZipReadU16 D (off + 28)

def entryEnd : Nat := dataStart D off + mediaZipReadU32 D (off + 18)

def entryLength : Nat :=
  30 + mediaZipReadU16 D (off + 26) + mediaZipReadU16 D (off + 28) + mediaZipReadU32 D (off + 18)

def nextOffset : Nat := off + entryLength D off % 2 ^ 32

def rawNameAt : List Char := ((D.drop (off + 30)).take (mediaZipReadU16 D (off + 26))).map charOf

def nameAt : List Char := cString (rawNameAt D off)

def isDirAt : Bool := endsInSlash (rawNameAt D off)

def contentAt : List UInt8 := (D.drop (dataStart D off)).take (mediaZipReadU32 D (off + 18))

def Begins : Prop := off + 30 ≤ D.length ∧ mediaZipReadU32 D off = localHeaderSig

structure Opens : Prop where
  begins : Begins D off
  method : mediaZipReadU16 D (off + 8) = 0
  fits : entryEnd D off ≤ D.length
  short : mediaZipReadU16 D (off + 26) < 256

end Entries

inductive Reached (D : List UInt8) : Nat → Prop
  | start : Reached D 0
  | next {off : Nat} (hOff : Reached D off) (hOpens : Opens D off) : Reached D (nextOffset D off)

variable {D : List UInt8} {off fuel : Nat}

theorem entryEnd_eq (D : List UInt8) (off : Nat) : entryEnd D off = off + entryLength D off := by
  rw [entryEnd, dataStart, entryLength]
  omega

theorem nextOffset_le (D : List UInt8) (off : Nat) : nextOffset D off ≤ entryEnd D off := by
  rw [entryEnd_eq, nextOffset]
  exact Nat.add_le_add_left (Nat.mod_le _ _) off

theorem nextOffset_eq (h : entryLength D off < 2 ^ 32) : nextOffset D off = entryEnd D off := by
  rw [entryEnd_eq, nextOffset, Nat.mod_eq_of_lt h]

theorem Opens.contentAt_length (h : Opens D off) : (contentAt D off).length = mediaZipReadU32 D (off + 18) := by
  have hFits := h.fits
  rw [entryEnd] at hFits
  rw [contentAt, List.length_take, List.length_drop]
  omega

section InMemory

variable {σ : Type} {cb : σ → List Char → List UInt8 → Bool → Option (σ × Int)} {st st' : σ}

theorem foreachLoop_call (h : Opens D off) (st : σ) :
    foreachLoop D cb (fuel + 1) off st = (cb st (nameAt D off) (contentAt D off) (isDirAt D off)).bind fun r =>
      if r.2 ≠ 0 then some (r.1, -eIo) else foreachLoop D cb fuel (nextOffset D off) r.1 := by
  have hFits := h.fits
  have hShort := h.short
  simp only [entryEnd, dataStart, nextOffset, entryLength, nameAt, rawNameAt, contentAt, isDirAt] at hFits ⊢
  rw [foreachLoop, if_pos h.begins.1]
  simp only [h.begins.2, h.method, ne_eq, not_true, if_false, if_neg (Nat.not_lt.mpr hFits),
    if_neg (Nat.not_le.mpr hShort), Option.bind_eq_bind]
  rfl

theorem foreachLoop_opens (h : Opens D off)
    (hCb : cb st (nameAt D off) (contentAt D off) (isDirAt D off) = some (st', 0)) :
    foreachLoop D cb (fuel + 1) off st = foreachLoop D cb fuel (nextOffset D off) st' := by
  rw [foreachLoop_call h, hCb]
  rfl

def stopRet (D : List UInt8) (off : Nat) : Int :=
  if ¬ (off + 30 ≤ D.length ∧ mediaZipReadU32 D off = localHeaderSig) then 0
  else if mediaZipReadU16 D (off + 8) ≠ 0 ∨ D.length < entryEnd D off then -eIo
  else -eNameTooLong

theorem stopRet_eq_zero : stopRet D off = 0 ↔ ¬ Begins D off := by
  unfold stopRet Begins
  split
  case isTrue hNone => exact iff_of_true rfl hNone
  case isFalse hBegins =>
    refine iff_of_false ?_ hBegins
    split <;> decide

theorem foreachLoop_stops_eq (h : ¬ Opens D off) (cb : σ → List Char → List UInt8 → Bool → Option (σ × Int))
    (fuel : Nat) (st : σ) : foreachLoop D cb (fuel + 1) off st = some (st, stopRet D off) := by
  by_cases hBegins : off + 30 ≤ D.length ∧ mediaZipReadU32 D off = localHeaderSig
  · rw [foreachLoop, stopRet, if_pos hBegins.1, if_neg (not_not.mpr hBegins)]
    dsimp only
    rw [if_neg (not_not.mpr hBegins.2)]
    by_cases hMethod : mediaZipReadU16 D (off + 8) = 0
    · rw [if_neg (not_not.mpr hMethod)]
      have hEnd : off + 30 + mediaZipReadU16 D (off + 26) + mediaZipReadU16 D (off + 28) +
          mediaZipReadU32 D (off + 18) = entryEnd D off := rfl
      rw [hEnd]
      by_cases hFits : entryEnd D off ≤ D.length
      · have hLong : 256 ≤ mediaZipReadU16 D (off + 26) := by
          by_contra hShort
          exact h ⟨hBegins, hMethod, hFits, Nat.lt_of_not_le hShort⟩
        rw [if_neg (Nat.not_lt.mpr hFits), if_pos hLong, if_neg (by simp [hMethod, hFits])]
      · rw [if_pos (Nat.lt_of_not_le hFits), if_pos (Or.inr (Nat.lt_of_not_le hFits))]
    · rw [if_pos hMethod, if_pos (Or.inl hMethod)]
  · rw [foreachLoop, stopRet, if_pos hBegins]
    by_cases hHeader : off + 30 ≤ D.length
    · rw [if_pos hHeader]
      dsimp only
      rw [if_pos fun hSig => hBegins ⟨hHeader, hSig⟩]
    · rw [if_neg hHeader]

theorem foreachLoop_stops (h : ¬ Opens D off) (cb : σ → List Char → List UInt8 → Bool → Option (σ × Int))
    (fuel : Nat) (st : σ) :
    ∃ ret, foreachLoop D cb (fuel + 1) off st = some (st, ret) ∧ (ret = 0 ↔ ¬ Begins D off) :=
  ⟨stopRet D off, foreachLoop_stops_eq h cb fuel st, stopRet_eq_zero⟩

end InMemory

/-! ### Reading from the archive's file -/

structure Stored (s : Ramfs) (A : List (List Char)) (a : Nat) (D : List UInt8) (i : RamfsInode) : Prop where
  at_path : s.At A a i
  file : sIsDir i.mode = false
  sound : i.Sound
  bytes : i.bytes = D

theorem Stored.kept {s s' : Ramfs} {A : List (List Char)} {a : Nat} {i : RamfsInode} {M : PathMap}
    {X : Set (List (List Char))} (h : Stored s A a D i) (hShows : s.Shows s' M X) (hA : A ∉ X) :
    ∃ j, Stored s' A a D j := by
  obtain ⟨j, hj, hSame⟩ := hShows.spares A hA a i h.at_path
  exact ⟨j, hj, hSame.mode ▸ h.file, hSame.sound h.sound, hSame.bytes.trans h.bytes⟩

section Stream

variable {s : Ramfs} {A : List (List Char)} {a p n : Nat} {i : RamfsInode}

theorem Stored.size (h : Stored s A a D i) : i.size = D.length := by
  rw [← h.bytes, RamfsInode.length_bytes]

theorem Stored.vfsRead (h : Stored s A a D i) (hPos : p ≤ D.length) (size : Int) (n : Nat) :
    OpenFile.vfsRead ⟨false, a, size, p⟩ s n =
      some ((⟨false, a, size, (p + ((D.drop p).take n).length : Nat)⟩ : OpenFile),
        (((D.drop p).take n).length : Int), (D.drop p).take n) := by
  rw [vfsRead_at h.at_path.2 h.sound h.file (h.size ▸ hPos), h.bytes]

theorem Stored.readExact (h : Stored s A a D i) (size : Int) (hFits : p + n ≤ D.length) :
    mediaZipReadExact s ⟨false, a, size, p⟩ n =
      some ((⟨false, a, size, (p + n : Nat)⟩ : OpenFile), some ((D.drop p).take n)) := by
  have hLen : ((D.drop p).take n).length = n := by
    rw [List.length_take, List.length_drop]
    omega
  cases n with
  | zero => simp [mediaZipReadExact, readExactLoop]
  | succ n =>
    have hPositive : ¬ ((n + 1 : Nat) : Int) ≤ 0 := by omega
    rw [mediaZipReadExact, readExactLoop, if_pos (by simp), List.length_nil, Nat.sub_zero,
      h.vfsRead (by omega)]
    simp only [Option.bind_eq_bind, Option.bind_some, hLen, hPositive, if_false, List.nil_append]
    rw [readExactLoop, if_neg (by omega)]

theorem Stored.readExact_short (h : Stored s A a D i) (size : Int) (hPos : p ≤ D.length)
    (hShort : D.length < p + n) : ∃ f, mediaZipReadExact s ⟨false, a, size, p⟩ n = some (f, none) := by
  have hChunk : ((D.drop p).take n).length = D.length - p := by
    rw [List.length_take, List.length_drop]
    omega
  obtain ⟨m, rfl⟩ : ∃ m, n = m + 1 := ⟨n - 1, by omega⟩
  rw [mediaZipReadExact, readExactLoop, if_pos (by simp), List.length_nil, Nat.sub_zero, h.vfsRead hPos]
  simp only [Option.bind_eq_bind, Option.bind_some, hChunk, List.nil_append]
  by_cases hEnd : p = D.length
  · exact ⟨_, if_pos (by omega)⟩
  · -- the rest of the file was read; the next read gives nothing
    rw [if_neg (by omega), readExactLoop, if_pos (by omega), h.vfsRead (by omega)]
    have hNone : D.drop (p + (D.length - p)) = [] := List.drop_eq_nil_of_le (by omega)
    rw [hNone, List.take_nil]
    exact ⟨_, rfl⟩

theorem streamSkip_eq (hRange : p + n < 2 ^ 63) (size : Int) :
    mediaZipStreamSkip ⟨false, a, size, p⟩ n = ((⟨false, a, size, (p + n : Nat)⟩ : OpenFile), 0) := by
  have hNonneg : ¬ ((p + n : Nat) : Int) < 0 := by omega
  unfold mediaZipStreamSkip
  split
  · rename_i hZero
    rw [hZero, Nat.add_zero]
  · rw [vfsLseekCur_eq hRange]
    dsimp only
    rw [if_neg hNonneg]

end Stream

theorem byteAt_window {k n : Nat} (hk : k < n) : byteAt ((D.drop off).take n) k = byteAt D (off + k) := by
  rw [byteAt, byteAt, List.getD_eq_getElem?_getD, List.getElem?_take_of_lt hk, List.getElem?_drop,
    List.getD_eq_getElem?_getD]

theorem readU16_window {k n : Nat} (hk : k + 1 < n) :
    mediaZipReadU16 ((D.drop off).take n) k = mediaZipReadU16 D (off + k) := by
  rw [mediaZipReadU16, mediaZipReadU16, byteAt_window (by omega), byteAt_window hk, Nat.add_assoc]

theorem readU32_window {k n : Nat} (hk : k + 3 < n) :
    mediaZipReadU32 ((D.drop off).take n) k = mediaZipReadU32 D (off + k) := by
  rw [mediaZipReadU32, mediaZipReadU32, byteAt_window (by omega), byteAt_window (by omega),
    byteAt_window (by omega), byteAt_window hk, Nat.add_assoc, Nat.add_assoc, Nat.add_assoc]

theorem window (D : List UInt8) (off : Nat) :
    mediaZipReadU32 ((D.drop off).take 30) 0 = mediaZipReadU32 D off ∧
      mediaZipReadU16 ((D.drop off).take 30) 6 = mediaZipReadU16 D (off + 6) ∧
      mediaZipReadU16 ((D.drop off).take 30) 8 = mediaZipReadU16 D (off + 8) ∧
      mediaZipReadU32 ((D.drop off).take 30) 18 = mediaZipReadU32 D (off + 18) ∧
      mediaZipReadU16 ((D.drop off).take 30) 26 = mediaZipReadU16 D (off + 26) ∧
      mediaZipReadU16 ((D.drop off).take 30) 28 = mediaZipReadU16 D (off + 28) :=
  ⟨readU32_window (by decide), readU16_window (by decide), readU16_window (by decide),
    readU32_window (by decide), readU16_window (by decide), readU16_window (by decide)⟩

/-! ### The two loops side by side -/

/-- The header at `off` is one that both readers reject, or one that both take and go on behind: its sizes are not
announced for later, all of its bytes are there and fewer than 4 GiB, and it has a name unless it is a directory. -/
def SafeAt (D : List UInt8) (off : Nat) : Prop :=
  Begins D off → mediaZipReadU16 D (off + 8) = 0 → mediaZipReadU16 D (off + 26) < 256 →
    off + 30 + mediaZipReadU16 D (off + 26) ≤ D.length →
    mediaZipReadU16 D (off + 6) &&& 0x08 ≠ 0 ∧ D.length < entryEnd D off ∨
      mediaZipReadU16 D (off + 6) &&& 0x08 = 0 ∧ entryEnd D off ≤ D.length ∧
        entryLength D off < 2 ^ 32 ∧ (nameAt D off ≠ [] ∨ isDirAt D off = true)

theorem SafeAt.plain (h : SafeAt D off) (hOpens : Opens D off) :
    mediaZipReadU16 D (off + 6) &&& 0x08 = 0 ∧ nextOffset D off = entryEnd D off ∧
      (nameAt D off ≠ [] ∨ isDirAt D off = true) := by
  have hFits := hOpens.fits
  have hName : off + 30 + mediaZipReadU16 D (off + 26) ≤ D.length := by
    rw [entryEnd, dataStart] at hFits
    omega
  rcases h hOpens.begins hOpens.method hOpens.short hName with ⟨-, hCut⟩ | ⟨hFlags, -, hLength, hNamed⟩
  · omega
  · exact ⟨hFlags, nextOffset_eq hLength, hNamed⟩

section Simulation

variable {σ τ : Type} {cb : σ → List Char → List UInt8 → Bool → Option (σ × Int)} {cb' : StreamCb τ}
  {s s' : Ramfs} {A : List (List Char)} {a : Nat} {i : RamfsInode} {t t' : τ} {size : Int}

theorem header_read (h : Stored s A a D i) (hHeader : off + 30 ≤ D.length) (size : Int) :
    mediaZipReadExact s ⟨false, a, size, off⟩ 30 =
      some ((⟨false, a, size, (off + 30 : Nat)⟩ : OpenFile), some ((D.drop off).take 30)) :=
  h.readExact size hHeader

theorem fileForeachLoop_opens (h : Stored s A a D i) (hOpens : Opens D off)
    (hFlags : mediaZipReadU16 D (off + 6) &&& 0x08 = 0)
    (hCb : cb' s t ⟨false, a, size, (dataStart D off : Nat)⟩ (nameAt D off) (mediaZipReadU32 D (off + 18))
      (isDirAt D off) = some (s', t', ⟨false, a, size, (entryEnd D off : Nat)⟩, 0)) :
    fileForeachLoop cb' (fuel + 1) s ⟨false, a, size, off⟩ t =
      fileForeachLoop cb' fuel s' ⟨false, a, size, (entryEnd D off : Nat)⟩ t' := by
  have hFits := hOpens.fits
  have hSize := h.sound.size_lt
  rw [h.size] at hSize
  rw [entryEnd, dataStart] at hFits
  have hName : mediaZipReadExact s ⟨false, a, size, (off + 30 : Nat)⟩ (mediaZipReadU16 D (off + 26)) =
      some ((⟨false, a, size, (off + 30 + mediaZipReadU16 D (off + 26) : Nat)⟩ : OpenFile),
        some ((D.drop (off + 30)).take (mediaZipReadU16 D (off + 26)))) :=
    h.readExact size (by omega)
  have hSkip : mediaZipStreamSkip ⟨false, a, size, (off + 30 + mediaZipReadU16 D (off + 26) : Nat)⟩
      (mediaZipReadU16 D (off + 28)) = ((⟨false, a, size, (dataStart D off : Nat)⟩ : OpenFile), 0) :=
    streamSkip_eq (by omega) size
  have hShort := Nat.not_le.mpr hOpens.short
  rw [fileForeachLoop, header_read h hOpens.begins.1]
  simp only [Option.bind_eq_bind, Option.bind_some, window, hOpens.begins.2, hOpens.method, hFlags, hShort, hName,
    hSkip, ne_eq, not_true, or_self, if_false]
  rw [nameAt, rawNameAt, isDirAt, rawNameAt] at hCb
  rw [hCb]
  rfl

theorem fileForeachLoop_stops (h : Stored s A a D i) (hOff : off ≤ D.length) (hStops : ¬ Opens D off)
    (hSafe : SafeAt D off) (cb' : StreamCb τ) (fuel : Nat) (size : Int) (t : τ) :
    ∃ ret, fileForeachLoop cb' (fuel + 1) s ⟨false, a, size, off⟩ t = some (s, t, ret) ∧
      (ret = 0 ↔ ¬ Begins D off) := by
  by_cases hHeader : off + 30 ≤ D.length
  · rw [fileForeachLoop, header_read h hHeader]
    simp only [Option.bind_eq_bind, Option.bind_some, window]
    by_cases hSig : mediaZipReadU32 D off = localHeaderSig
    · have hBegins : Begins D off := ⟨hHeader, hSig⟩
      simp only [hSig, ne_eq, not_true, if_false, hBegins, iff_false]
      split
      · exact ⟨-eIo, rfl, by decide⟩
      · rename_i hStored
        split
        · exact ⟨-eNameTooLong, rfl, by decide⟩
        · rename_i hShort
          rw [not_or, not_not, not_not] at hStored
          by_cases hName : off + 30 + mediaZipReadU16 D (off + 26) ≤ D.length
          · rcases hSafe hBegins hStored.1 (by omega) hName with ⟨hFlags, -⟩ | ⟨-, hFits, -⟩
            · exact absurd hStored.2 hFlags
            · exact absurd ⟨hBegins, hStored.1, hFits, by omega⟩ hStops
          · -- the name is cut off
            obtain ⟨f, hRead⟩ := h.readExact_short size hHeader (Nat.lt_of_not_le hName)
            rw [hRead]
            exact ⟨-eIo, rfl, by decide⟩
    · refine ⟨0, ?_, by simp [Begins, hSig]⟩
      simp [hSig]
  · obtain ⟨f, hRead⟩ := h.readExact_short size hOff (Nat.lt_of_not_le hHeader)
    refine ⟨0, ?_, by simp [Begins, hHeader]⟩
    rw [fileForeachLoop, hRead]
    rfl

theorem Reached.le_length (h : Reached D off) : off ≤ D.length := by
  cases h with
  | start => exact Nat.zero_le _
  | next hOff hOpens => exact (nextOffset_le D _).trans hOpens.fits

structure Simulates (D : List UInt8) (A : List (List Char)) (a : Nat) (size : Int)
    (cb : σ → List Char → List UInt8 → Bool → Option (σ × Int)) (cb' : StreamCb τ)
    (R : σ → Ramfs → τ → Prop) : Prop where
  stored : ∀ {st s t}, R st s t → ∃ i, Stored s A a D i
  step : ∀ {st s t off}, R st s t → Reached D off → Opens D off → ∃ st' s' t',
    cb st (nameAt D off) (contentAt D off) (isDirAt D off) = some (st', 0) ∧
    cb' s t ⟨false, a, size, (dataStart D off : Nat)⟩ (nameAt D off) (mediaZipReadU32 D (off + 18)) (isDirAt D off) =
      some (s', t', ⟨false, a, size, (entryEnd D off : Nat)⟩, 0) ∧ R st' s' t'

theorem Simulates.loop {R : σ → Ramfs → τ → Prop} (h : Simulates D A a size cb cb' R)
    (hSafe : ∀ off, Reached D off → SafeAt D off) {st : σ} (hR : R st s t) (hOff : Reached D off)
    (hFuel : D.length < off + fuel) :
    ∃ st' s' t' ret ret', foreachLoop D cb fuel off st = some (st', ret) ∧
      fileForeachLoop cb' fuel s ⟨false, a, size, off⟩ t = some (s', t', ret') ∧
      (ret = 0 ↔ ret' = 0) ∧ R st' s' t' := by
  induction fuel generalizing off st s t with
  | zero => exact absurd hOff.le_length (by omega)
  | succ fuel ih =>
    obtain ⟨i, hStored⟩ := h.stored hR
    by_cases hOpens : Opens D off
    · obtain ⟨st', s', t', hCb, hCb', hR'⟩ := h.step hR hOff hOpens
      obtain ⟨hFlags, hNext, -⟩ := (hSafe off hOff).plain hOpens
      have hReached := Reached.next hOff hOpens
      rw [foreachLoop_opens hOpens hCb, fileForeachLoop_opens hStored hOpens hFlags hCb', hNext]
      refine ih hR' (hNext ▸ hReached) ?_
      rw [entryEnd, dataStart]
      omega
    · obtain ⟨ret, hLoop, hRet⟩ := foreachLoop_stops hOpens cb fuel st
      obtain ⟨ret', hLoop', hRet'⟩ := fileForeachLoop_stops hStored hOff.le_length hOpens (hSafe off hOff)
        cb' fuel size t
      exact ⟨st, s, t, ret, ret', hLoop, hLoop', hRet.trans hRet'.symm, hR⟩

end Simulation

end UnixOS.Media
