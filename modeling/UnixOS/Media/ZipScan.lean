import UnixOS.Lib.AccessLog
import UnixOS.Media.ZipRecords

/-! # What the reader in memory touches

`media_zip_foreach` of `kernel/media/media.c` once more, with the `size_t` arithmetic of its offsets and a record of
every byte of the input that it reads, every byte of its name buffer that it touches, and the ranges that it gives to
the callback. Without the record it is the reader in memory.
-/

namespace UnixOS.Media.Scan

open Fs ByteMemory AccessLog

inductive ZipAccess
  | read (i : Nat)
  | buffer (i : Nat)
  /-- The buffer with the name, the index of its last byte, and the range of the content. -/
  | call (name : Nat → UInt8) (nameLen pos len : Nat)

structure ZipScan (σ : Type) where
  offset : UInt64
  name : Nat → UInt8
  ctx : σ

variable {σ : Type}

/-- A computation of the reader. It stops only for want of fuel. -/
abbrev ZipRun (σ α : Type) : Type := Run (ZipScan σ) Unit ZipAccess α

/-- The context, the name buffer, the place and the length of the content, and whether it is a directory. -/
abbrev ZipCallback (σ : Type) : Type := σ → (Nat → UInt8) → Nat → Nat → Bool → σ × Int

def readByte (data : List UInt8) (i : UInt64) : ZipRun σ Nat := do
  Run.access (.read i.toNat)
  pure (byteAt data i.toNat)

def readU16 (data : List UInt8) (offset : UInt64) : ZipRun σ Nat := do
  let b0 ← readByte data offset
  let b1 ← readByte data (offset + 1)
  pure (b0 ||| b1 <<< 8)

def readU32 (data : List UInt8) (offset : UInt64) : ZipRun σ Nat := do
  let b0 ← readByte data offset
  let b1 ← readByte data (offset + 1)
  let b2 ← readByte data (offset + 2)
  let b3 ← readByte data (offset + 3)
  pure (b0 ||| b1 <<< 8 ||| b2 <<< 16 ||| b3 <<< 24)

def writeName (i : Nat) (b : UInt8) : ZipRun σ Unit := do
  Run.access (.buffer i)
  Run.modify fun st => { st with name := Function.update st.name i b }

/-- The loop that copies the name: `n` bytes from index `i` on. -/
def copyName (data : List UInt8) (src : UInt64) : Nat → Nat → ZipRun σ Unit
  | 0, _ => pure ()
  | n + 1, i => do
    let b ← readByte data (src + UInt64.ofNat i)
    writeName i (UInt8.ofNat b)
    copyName data src n (i + 1)

def nameEndsInSlash (nameLen : Nat) : ZipRun σ Bool :=
  if 0 < nameLen then do
    Run.access (.buffer (nameLen - 1))
    let st ← Run.get
    pure (decide (st.name (nameLen - 1) = 0x2F))
  else pure false

def foreachLoop (data : List UInt8) (cb : ZipCallback σ) : Nat → ZipRun σ Int
  | 0 => Run.stop ()
  | fuel + 1 => do
    let st ← Run.get
    if st.offset + 30 ≤ UInt64.ofNat data.length then do
      let sig ← readU32 data st.offset
      if sig ≠ localHeaderSig then pure 0
      else do
        let method ← readU16 data (st.offset + 8)
        let compSize ← readU32 data (st.offset + 18)
        let nameLen ← readU16 data (st.offset + 26)
        let extraLen ← readU16 data (st.offset + 28)
        if method ≠ 0 then pure (-eIo)
        else if UInt64.ofNat data.length <
            st.offset + 30 + UInt64.ofNat nameLen + UInt64.ofNat extraLen + UInt64.ofNat compSize then pure (-eIo)
        else if 256 ≤ nameLen then pure (-eNameTooLong)
        else do
          copyName data (st.offset + 30) nameLen 0
          writeName nameLen 0
          let isDir ← nameEndsInSlash nameLen
          let named ← Run.get
          let content := (st.offset + 30 + UInt64.ofNat nameLen + UInt64.ofNat extraLen).toNat
          Run.access (.call named.name nameLen content compSize)
          let (ctx, ret) := cb named.ctx named.name content compSize isDir
          Run.modify fun st => { st with ctx := ctx }
          if ret ≠ 0 then pure (-eIo)
          else do
            Run.modify fun st => { st with
              offset := st.offset + UInt64.ofNat ((30 + nameLen + extraLen + compSize) % 2 ^ 32) }
            foreachLoop data cb fuel
    else pure 0

/-- The name buffer starts out with any bytes. -/
def mediaZipForeach (data : List UInt8) (cb : ZipCallback σ) (fuel : Nat) (name : Nat → UInt8) (ctx : σ) :
    AccessLog.Outcome (ZipScan σ) Unit ZipAccess Int :=
  if UInt64.ofNat data.length < 30 then ⟨.ok (-eInval), ⟨0, name, ctx⟩, []⟩
  else foreachLoop data cb fuel ⟨0, name, ctx⟩

/-! ### Accesses inside their bounds -/

namespace ZipAccess

def Fits (size : Nat) : ZipAccess → Prop
  | .read i => i < size
  | .buffer i => i < 256
  | .call name nameLen pos len => nameLen < 256 ∧ name nameLen = 0 ∧ pos + len ≤ size

def ranges (log : List ZipAccess) : List (Nat × Nat) :=
  log.filterMap fun
    | .call _ _ pos len => some (pos, len)
    | _ => none

end ZipAccess

structure Quiet (size : Nat) (log : List ZipAccess) : Prop where
  fits : ∀ e ∈ log, e.Fits size
  ranges : ZipAccess.ranges log = []

structure Safe (size lo : Nat) (log : List ZipAccess) : Prop where
  fits : ∀ e ∈ log, e.Fits size
  ordered : (ZipAccess.ranges log).Pairwise fun c d => c.1 + c.2 ≤ d.1
  behind : ∀ c ∈ ZipAccess.ranges log, lo ≤ c.1

section Records

variable {size lo hi : Nat} {log log' : List ZipAccess}

theorem ranges_append : ZipAccess.ranges (log ++ log') = ZipAccess.ranges log ++ ZipAccess.ranges log' :=
  List.filterMap_append

theorem Quiet.nil : Quiet size [] :=
  ⟨nofun, rfl⟩

theorem Quiet.append (h : Quiet size log) (h' : Quiet size log') : Quiet size (log ++ log') :=
  ⟨List.forall_mem_append.mpr ⟨h.fits, h'.fits⟩, by rw [ranges_append, h.ranges, h'.ranges, List.append_nil]⟩

theorem Quiet.read {i : Nat} (h : i < size) : Quiet size [.read i] :=
  ⟨fun _ he => List.mem_singleton.mp he ▸ h, rfl⟩

theorem Quiet.buffer {i : Nat} (h : i < 256) : Quiet size [.buffer i] :=
  ⟨fun _ he => List.mem_singleton.mp he ▸ h, rfl⟩

theorem Quiet.safe (h : Quiet size log) : Safe size lo log := by
  refine ⟨h.fits, ?_, ?_⟩ <;> rw [h.ranges]
  · exact List.Pairwise.nil
  · exact nofun

theorem Safe.after (h : Safe size lo log') (hQuiet : Quiet size log) : Safe size lo (log ++ log') := by
  refine ⟨List.forall_mem_append.mpr ⟨hQuiet.fits, h.fits⟩, ?_, ?_⟩ <;> rw [ranges_append, hQuiet.ranges, List.nil_append]
  · exact h.ordered
  · exact h.behind

theorem Safe.call {name : Nat → UInt8} {nameLen pos len : Nat} (h : Safe size hi log) (hLo : lo ≤ pos) (hHi : pos + len ≤ hi)
    (hFits : (ZipAccess.call name nameLen pos len).Fits size) : Safe size lo (.call name nameLen pos len :: log) := by
  have hRanges : ZipAccess.ranges (.call name nameLen pos len :: log) = (pos, len) :: ZipAccess.ranges log := rfl
  refine ⟨List.forall_mem_cons.mpr ⟨hFits, h.fits⟩, ?_, ?_⟩ <;> rw [hRanges]
  · exact List.pairwise_cons.mpr ⟨fun d hd => hHi.trans (h.behind d hd), h.ordered⟩
  · exact List.forall_mem_cons.mpr ⟨hLo, fun d hd => (hLo.trans (Nat.le_of_add_right_le hHi)).trans (h.behind d hd)⟩

end Records

/-! ### The parts of a round -/

section Parts

variable {D : List UInt8} {st : ZipScan σ} {off : UInt64}

theorem toNat_add (off : UInt64) {k : Nat} (h : off.toNat + k < 2 ^ 64) : (off + UInt64.ofNat k).toNat = off.toNat + k := by
  have hk : k < 2 ^ 64 := by omega
  rw [UInt64.toNat_add, UInt64.toNat_ofNat_of_lt' (by simpa [UInt64.size] using hk)]
  exact Nat.mod_eq_of_lt h

theorem readU16_run (hIn : off.toNat + 2 ≤ D.length) (hSize : D.length < 2 ^ 63) :
    ∃ log, readU16 D off st = ⟨.ok (mediaZipReadU16 D off.toNat), st, log⟩ ∧ Quiet D.length log := by
  have h1 : (off + 1).toNat = off.toNat + 1 := toNat_add off (k := 1) (by omega)
  refine ⟨[.read off.toNat, .read (off + 1).toNat], ?_, (Quiet.read (by omega)).append (.read (by omega))⟩
  rw [mediaZipReadU16, ← h1]
  rfl

theorem readU32_run (hIn : off.toNat + 4 ≤ D.length) (hSize : D.length < 2 ^ 63) :
    ∃ log, readU32 D off st = ⟨.ok (mediaZipReadU32 D off.toNat), st, log⟩ ∧ Quiet D.length log := by
  have h1 : (off + 1).toNat = off.toNat + 1 := toNat_add off (k := 1) (by omega)
  have h2 : (off + 2).toNat = off.toNat + 2 := toNat_add off (k := 2) (by omega)
  have h3 : (off + 3).toNat = off.toNat + 3 := toNat_add off (k := 3) (by omega)
  refine ⟨[.read off.toNat, .read (off + 1).toNat, .read (off + 2).toNat, .read (off + 3).toNat], ?_,
    (Quiet.read (by omega)).append ((Quiet.read (by omega)).append ((Quiet.read (by omega)).append (.read (by omega))))⟩
  rw [mediaZipReadU32, ← h1, ← h2, ← h3]
  rfl

def copied (D : List UInt8) (src i stop : Nat) (name : Nat → UInt8) : Nat → UInt8 :=
  fun k => if i ≤ k ∧ k < stop then D.getD (src + k) 0 else name k

theorem copyName_run (n i : Nat) (hIn : off.toNat + (i + n) ≤ D.length) (hName : i + n ≤ 256) (hSize : D.length < 2 ^ 63) :
    ∃ log, copyName D off n i st = ⟨.ok (), { st with name := copied D off.toNat i (i + n) st.name }, log⟩ ∧
      Quiet D.length log := by
  induction n generalizing i st with
  | zero =>
    refine ⟨[], ?_, .nil⟩
    have hNone : copied D off.toNat i (i + 0) st.name = st.name := by
      funext k
      rw [copied, if_neg (by omega)]
    rw [hNone]
    rfl
  | succ n ih =>
    have hi : (off + UInt64.ofNat i).toNat = off.toNat + i := toNat_add off (by omega)
    obtain ⟨log, hRest, hQuiet⟩ :=
      @ih { st with name := Function.update st.name i (D.getD (off.toNat + i) 0) } (i + 1) (by omega) (by omega)
    refine ⟨[.read (off.toNat + i), .buffer i] ++ log, ?_,
      ((Quiet.read (by omega)).append (.buffer (by omega))).append hQuiet⟩
    have hMore : copied D off.toNat (i + 1) (i + 1 + n) (Function.update st.name i (D.getD (off.toNat + i) 0)) =
        copied D off.toNat i (i + (n + 1)) st.name := by
      funext k
      rw [copied, copied]
      by_cases hk : k = i
      · rw [hk, if_neg (by omega), if_pos (by omega), Function.update_self]
      · rw [Function.update_of_ne hk]
        exact if_congr (by omega) rfl rfl
    rw [hMore] at hRest
    have hByte : readByte D (off + UInt64.ofNat i) st =
        ⟨.ok (byteAt D (off.toNat + i)), st, [.read (off.toNat + i)]⟩ := by
      rw [← hi]
      rfl
    have hWrite : writeName i (UInt8.ofNat (byteAt D (off.toNat + i))) st =
        ⟨.ok (), { st with name := Function.update st.name i (D.getD (off.toNat + i) 0) }, [.buffer i]⟩ := by
      rw [byteAt, UInt8.ofNat_toNat]
      rfl
    rw [copyName, bind_of_ok hByte, bind_of_ok hWrite, hRest]
    rfl

end Parts

/-! ### A round -/

section Rounds

variable {D : List UInt8} {cb : ZipCallback σ} {st : ZipScan σ} {fuel : Nat}

def nameBuffer (D : List UInt8) (off : Nat) (name : Nat → UInt8) : Nat → UInt8 :=
  let nameLen := mediaZipReadU16 D (off + 26)
  Function.update (copied D (off + 30) 0 nameLen name) nameLen 0

theorem header_run (hIn : st.offset.toNat + 30 ≤ D.length) (hSize : D.length < 2 ^ 63) :
    let off := st.offset.toNat
    (∃ log, readU32 D st.offset st = ⟨.ok (mediaZipReadU32 D off), st, log⟩ ∧ Quiet D.length log) ∧
    (∃ log, readU16 D (st.offset + 8) st = ⟨.ok (mediaZipReadU16 D (off + 8)), st, log⟩ ∧ Quiet D.length log) ∧
    (∃ log, readU32 D (st.offset + 18) st = ⟨.ok (mediaZipReadU32 D (off + 18)), st, log⟩ ∧ Quiet D.length log) ∧
    (∃ log, readU16 D (st.offset + 26) st = ⟨.ok (mediaZipReadU16 D (off + 26)), st, log⟩ ∧ Quiet D.length log) ∧
    ∃ log, readU16 D (st.offset + 28) st = ⟨.ok (mediaZipReadU16 D (off + 28)), st, log⟩ ∧ Quiet D.length log := by
  have h8 : (st.offset + 8).toNat = st.offset.toNat + 8 := toNat_add st.offset (k := 8) (by omega)
  have h18 : (st.offset + 18).toNat = st.offset.toNat + 18 := toNat_add st.offset (k := 18) (by omega)
  have h26 : (st.offset + 26).toNat = st.offset.toNat + 26 := toNat_add st.offset (k := 26) (by omega)
  have h28 : (st.offset + 28).toNat = st.offset.toNat + 28 := toNat_add st.offset (k := 28) (by omega)
  refine ⟨readU32_run (by omega) hSize, ?_, ?_, ?_, ?_⟩
  · rw [← h8]
    exact readU16_run (by omega) hSize
  · rw [← h18]
    exact readU32_run (by omega) hSize
  · rw [← h26]
    exact readU16_run (by omega) hSize
  · rw [← h28]
    exact readU16_run (by omega) hSize

theorem readU16_lt (buf : List UInt8) (off : Nat) : mediaZipReadU16 buf off < 2 ^ 16 := by
  have h0 := byteAt_lt buf off
  have h1 := byteAt_lt buf (off + 1)
  rw [readU16_eq]
  omega

theorem toNat_sums (D : List UInt8) {off : UInt64} (h : off.toNat < 2 ^ 63) :
    (off + 30 + UInt64.ofNat (mediaZipReadU16 D (off.toNat + 26)) +
        UInt64.ofNat (mediaZipReadU16 D (off.toNat + 28))).toNat = dataStart D off.toNat ∧
      (off + 30 + UInt64.ofNat (mediaZipReadU16 D (off.toNat + 26)) + UInt64.ofNat (mediaZipReadU16 D (off.toNat + 28)) +
        UInt64.ofNat (mediaZipReadU32 D (off.toNat + 18))).toNat = entryEnd D off.toNat ∧
      (off + UInt64.ofNat ((30 + mediaZipReadU16 D (off.toNat + 26) + mediaZipReadU16 D (off.toNat + 28) +
        mediaZipReadU32 D (off.toNat + 18)) % 2 ^ 32)).toNat = nextOffset D off.toNat := by
  have hName := readU16_lt D (off.toNat + 26)
  have hExtra := readU16_lt D (off.toNat + 28)
  have hComp := readU32_lt D (off.toNat + 18)
  have h30 : (off + 30).toNat = off.toNat + 30 := toNat_add off (k := 30) (by omega)
  have hNamed := toNat_add (off + 30) (k := mediaZipReadU16 D (off.toNat + 26)) (by omega)
  have hStart := toNat_add (off + 30 + UInt64.ofNat (mediaZipReadU16 D (off.toNat + 26)))
    (k := mediaZipReadU16 D (off.toNat + 28)) (by omega)
  refine ⟨?_, ?_, ?_⟩
  · rw [hStart, hNamed, h30, dataStart]
  · rw [toNat_add _ (by omega), hStart, hNamed, h30, entryEnd, dataStart]
  · rw [toNat_add _ (by omega), nextOffset, entryLength]

theorem header_fits_iff (h : st.offset.toNat < 2 ^ 63) (hSize : D.length < 2 ^ 63) :
    st.offset + 30 ≤ UInt64.ofNat D.length ↔ st.offset.toNat + 30 ≤ D.length := by
  have h30 : (st.offset + 30).toNat = st.offset.toNat + 30 := toNat_add st.offset (k := 30) (by omega)
  rw [UInt64.le_iff_toNat_le, h30, UInt64.toNat_ofNat_of_lt' (by simp [UInt64.size]; omega)]

theorem cut_off_iff {off : UInt64} (h : off.toNat < 2 ^ 63) (hSize : D.length < 2 ^ 63) :
    UInt64.ofNat D.length < off + 30 + UInt64.ofNat (mediaZipReadU16 D (off.toNat + 26)) +
      UInt64.ofNat (mediaZipReadU16 D (off.toNat + 28)) + UInt64.ofNat (mediaZipReadU32 D (off.toNat + 18)) ↔
      D.length < entryEnd D off.toNat := by
  rw [UInt64.lt_iff_toNat_lt, (toNat_sums D h).2.1, UInt64.toNat_ofNat_of_lt' (by simp [UInt64.size]; omega)]

def Stops (size : Nat) (st : ZipScan σ) (ret : Int) (o : AccessLog.Outcome (ZipScan σ) Unit ZipAccess Int) : Prop :=
  ∃ log, o = ⟨.ok ret, st, log⟩ ∧ Quiet size log

theorem Stops.after {size : Nat} {ret : Int} {log : List ZipAccess} {o : AccessLog.Outcome (ZipScan σ) Unit ZipAccess Int}
    (h : Stops size st ret o) (hLog : Quiet size log) : Stops size st ret (o.after log) := by
  obtain ⟨log', rfl, hLog'⟩ := h
  exact ⟨log ++ log', rfl, hLog.append hLog'⟩

theorem Stops.pure {size : Nat} {ret ret' : Int} (h : ret' = ret) : Stops size st ret ((pure ret' : ZipRun σ Int) st) :=
  ⟨[], h ▸ rfl, .nil⟩

theorem foreachLoop_stops (hOff : st.offset.toNat ≤ D.length) (hSize : D.length < 2 ^ 63)
    (h : ¬ Opens D st.offset.toNat) (cb : ZipCallback σ) (fuel : Nat) :
    Stops D.length st (stopRet D st.offset.toNat) (foreachLoop D cb (fuel + 1) st) := by
  have hFits := @header_fits_iff _ D st (by omega) hSize
  have hCut := @cut_off_iff D st.offset (by omega) hSize
  rw [foreachLoop, bind_get]
  by_cases hIn : st.offset.toNat + 30 ≤ D.length
  · obtain ⟨⟨l, hSig, hl⟩, ⟨l₁, hMethod, hl₁⟩, ⟨l₂, hComp, hl₂⟩, ⟨l₃, hName, hl₃⟩, ⟨l₄, hExtra, hl₄⟩⟩ := header_run hIn hSize
    rw [if_pos (hFits.mpr hIn), bind_of_ok hSig]
    refine Stops.after ?_ hl
    by_cases hLocal : mediaZipReadU32 D st.offset.toNat = localHeaderSig
    · rw [if_neg (not_not.mpr hLocal), bind_of_ok hMethod, bind_of_ok hComp, bind_of_ok hName, bind_of_ok hExtra]
      refine Stops.after (Stops.after (Stops.after (Stops.after ?_ hl₄) hl₃) hl₂) hl₁
      by_cases hStored : mediaZipReadU16 D (st.offset.toNat + 8) = 0
      · rw [if_neg (not_not.mpr hStored)]
        by_cases hWhole : entryEnd D st.offset.toNat ≤ D.length
        · have hLong : 256 ≤ mediaZipReadU16 D (st.offset.toNat + 26) := by
            by_contra hShort
            exact h ⟨⟨hIn, hLocal⟩, hStored, hWhole, Nat.lt_of_not_le hShort⟩
          rw [if_neg (mt hCut.mp (Nat.not_lt.mpr hWhole)), if_pos hLong]
          refine Stops.pure ?_
          rw [stopRet, if_neg (not_not.mpr ⟨hIn, hLocal⟩), if_neg (by simp [hStored, hWhole])]
        · rw [if_pos (hCut.mpr (Nat.lt_of_not_le hWhole))]
          refine Stops.pure ?_
          rw [stopRet, if_neg (not_not.mpr ⟨hIn, hLocal⟩), if_pos (Or.inr (Nat.lt_of_not_le hWhole))]
      · rw [if_pos hStored]
        refine Stops.pure ?_
        rw [stopRet, if_neg (not_not.mpr ⟨hIn, hLocal⟩), if_pos (Or.inl hStored)]
    · rw [if_pos hLocal]
      exact Stops.pure (if_pos fun hBegins => hLocal hBegins.2).symm
  · rw [if_neg (mt hFits.mp hIn)]
    exact Stops.pure (if_pos fun hBegins => hIn hBegins.1).symm

theorem charOf_eq_slash (b : UInt8) : charOf b = '/' ↔ b = 0x2F := by
  have hAll : ∀ n < 256, Char.ofNat n = '/' → n = 0x2F := by decide +kernel
  constructor
  · exact fun h => UInt8.toNat_inj.mp (hAll b.toNat b.toNat_lt h)
  · rintro rfl
    rfl

theorem nameBuffer_end (D : List UInt8) (off : Nat) (name : Nat → UInt8) :
    nameBuffer D off name (mediaZipReadU16 D (off + 26)) = 0 :=
  Function.update_self _ _ _

theorem nameBuffer_lt {off k : Nat} (h : k < mediaZipReadU16 D (off + 26)) (name : Nat → UInt8) :
    nameBuffer D off name k = D.getD (off + 30 + k) 0 := by
  unfold nameBuffer
  rw [Function.update_of_ne (Nat.ne_of_lt h), copied, if_pos ⟨Nat.zero_le k, h⟩]

theorem name_fits {off : Nat} (h : Opens D off) : off + 30 + mediaZipReadU16 D (off + 26) ≤ D.length := by
  have hFits := h.fits
  rw [entryEnd, dataStart] at hFits
  omega

theorem nameEndsInSlash_run {off : Nat} (h : Opens D off) {name : Nat → UInt8}
    (hName : st.name = nameBuffer D off name) :
    ∃ log, nameEndsInSlash (mediaZipReadU16 D (off + 26)) st = ⟨.ok (isDirAt D off), st, log⟩ ∧ Quiet D.length log := by
  have hFits := name_fits h
  have hShort := h.short
  unfold nameEndsInSlash isDirAt endsInSlash
  rw [rawNameAt, List.getLast?_map, List.getLast?_eq_getElem?]
  split
  case isTrue hSome =>
    refine ⟨[.buffer (mediaZipReadU16 D (off + 26) - 1)], ?_, .buffer (by omega)⟩
    have hLen : ((D.drop (off + 30)).take (mediaZipReadU16 D (off + 26))).length = mediaZipReadU16 D (off + 26) := by
      rw [List.length_take, List.length_drop]
      omega
    have hLast : st.name (mediaZipReadU16 D (off + 26) - 1) = 0x2F ↔
        (((D.drop (off + 30)).take (mediaZipReadU16 D (off + 26)))[mediaZipReadU16 D (off + 26) - 1]?).map charOf =
          some '/' := by
      rw [hName, nameBuffer_lt (by omega), List.getElem?_take_of_lt (by omega), List.getElem?_drop,
        List.getElem?_eq_getElem (by omega), Option.map_some, Option.some_inj, charOf_eq_slash,
        List.getD_eq_getElem _ _ (by omega)]
    rw [hLen, ← decide_eq_decide.mpr hLast]
    rfl
  case isFalse hNone =>
    have hZero : mediaZipReadU16 D (off + 26) = 0 := by omega
    refine ⟨[], ?_, .nil⟩
    rw [hZero]
    rfl

def callAt (D : List UInt8) (off : Nat) (name : Nat → UInt8) : ZipAccess :=
  .call (nameBuffer D off name) (mediaZipReadU16 D (off + 26)) (dataStart D off) (mediaZipReadU32 D (off + 18))

theorem foreachLoop_opens {off : Nat} {ctx : σ} {ret : Int} (hSize : D.length < 2 ^ 63) (h : Opens D off)
    (hOff : st.offset.toNat = off)
    (hCb : cb st.ctx (nameBuffer D off st.name) (dataStart D off) (mediaZipReadU32 D (off + 18)) (isDirAt D off) = (ctx, ret))
    (fuel : Nat) :
    ∃ offset log, UInt64.toNat offset = nextOffset D off ∧ Quiet D.length log ∧
      foreachLoop D cb (fuel + 1) st =
        (if ret ≠ 0 then ⟨.ok (-eIo), ⟨st.offset, nameBuffer D off st.name, ctx⟩, []⟩
          else foreachLoop D cb fuel ⟨offset, nameBuffer D off st.name, ctx⟩).after
        (log ++ [callAt D off st.name]) := by
  subst hOff
  have hIn := h.begins.1
  have hFits := name_fits h
  have hShort := h.short
  have hLong : st.offset.toNat < 2 ^ 63 := by omega
  obtain ⟨hStart, -, hNext⟩ := toNat_sums D hLong
  obtain ⟨⟨l, hSig, hl⟩, ⟨l₁, hMethod, hl₁⟩, ⟨l₂, hComp, hl₂⟩, ⟨l₃, hName, hl₃⟩, ⟨l₄, hExtra, hl₄⟩⟩ := header_run hIn hSize
  have h30 : (st.offset + 30).toNat = st.offset.toNat + 30 := toNat_add st.offset (k := 30) (by omega)
  obtain ⟨l₅, hCopy, hl₅⟩ := @copyName_run _ D st (st.offset + 30) (mediaZipReadU16 D (st.offset.toNat + 26)) 0
    (by omega) (by omega) hSize
  rw [h30, Nat.zero_add] at hCopy
  have hNul : writeName (mediaZipReadU16 D (st.offset.toNat + 26)) 0
      { st with name := copied D (st.offset.toNat + 30) 0 (mediaZipReadU16 D (st.offset.toNat + 26)) st.name } =
      ⟨.ok (), { st with name := nameBuffer D st.offset.toNat st.name },
        [.buffer (mediaZipReadU16 D (st.offset.toNat + 26))]⟩ := rfl
  obtain ⟨l₆, hDir, hl₆⟩ := @nameEndsInSlash_run _ D { st with name := nameBuffer D st.offset.toNat st.name } _ h st.name rfl
  refine ⟨_, l ++ (l₁ ++ (l₂ ++ (l₃ ++ (l₄ ++ (l₅ ++ ([.buffer (mediaZipReadU16 D (st.offset.toNat + 26))] ++ l₆)))))),
    hNext, hl.append (hl₁.append (hl₂.append (hl₃.append (hl₄.append (hl₅.append ((Quiet.buffer hShort).append hl₆)))))), ?_⟩
  rw [foreachLoop, bind_get, if_pos ((header_fits_iff hLong hSize).mpr hIn), bind_of_ok hSig,
    if_neg (not_not.mpr h.begins.2), bind_of_ok hMethod, bind_of_ok hComp, bind_of_ok hName, bind_of_ok hExtra,
    if_neg (not_not.mpr h.method), if_neg (mt (cut_off_iff hLong hSize).mp (Nat.not_lt.mpr h.fits)),
    if_neg (Nat.not_le.mpr hShort), bind_of_ok hCopy, bind_of_ok hNul, bind_of_ok hDir, bind_get]
  dsimp only
  rw [hStart, hCb, bind_access, bind_modify]
  simp only [AccessLog.Outcome.after_after, List.append_assoc]
  split <;> rfl

/-! ### The reader without its record -/

def bufferName (name : Nat → UInt8) : List Char :=
  cString ((List.range 256).map fun i => charOf (name i))

def onBytes (D : List UInt8) (cb : σ → List Char → List UInt8 → Bool → σ × Int) : ZipCallback σ :=
  fun ctx name pos len isDir => cb ctx (bufferName name) ((D.drop pos).take len) isDir

theorem cString_append_nul (name rest : List Char) : cString (name ++ '\x00' :: rest) = cString name := by
  unfold cString
  induction name with
  | nil => rfl
  | cons c name ih =>
    rw [List.cons_append, List.takeWhile_cons, List.takeWhile_cons, ih]

theorem bufferName_nameBuffer {off : Nat} (h : Opens D off) (name : Nat → UInt8) :
    bufferName (nameBuffer D off name) = nameAt D off := by
  have hFits := name_fits h
  obtain ⟨more, hMore⟩ : ∃ more, 256 = mediaZipReadU16 D (off + 26) + (more + 1) :=
    ⟨255 - mediaZipReadU16 D (off + 26), by have := h.short; omega⟩
  have hRaw : (List.range (mediaZipReadU16 D (off + 26))).map (fun i => charOf (nameBuffer D off name i)) =
      rawNameAt D off := by
    refine List.ext_getElem? fun k => ?_
    rw [rawNameAt, List.getElem?_map, List.getElem?_map]
    by_cases hk : k < mediaZipReadU16 D (off + 26)
    · rw [List.getElem?_range hk, List.getElem?_take_of_lt hk, List.getElem?_drop, List.getElem?_eq_getElem (by omega),
        Option.map_some, Option.map_some, nameBuffer_lt hk, List.getD_eq_getElem _ _ (by omega)]
    · rw [List.getElem?_eq_none (by rw [List.length_range]; omega),
        List.getElem?_eq_none (by rw [List.length_take]; omega)]
      rfl
  rw [bufferName, hMore, List.range_add, List.range_succ_eq_map, List.map_cons, List.map_append, hRaw, List.map_cons,
    Nat.add_zero, nameBuffer_end]
  exact cString_append_nul _ _

theorem foreachLoop_erase (hSize : D.length < 2 ^ 63) (cb : σ → List Char → List UInt8 → Bool → σ × Int)
    (hOff : st.offset.toNat ≤ D.length) :
    (match (foreachLoop D (onBytes D cb) fuel st).result with
      | .ok ret => some ((foreachLoop D (onBytes D cb) fuel st).state.ctx, ret)
      | .error _ => none) =
    Media.foreachLoop D (fun ctx name content isDir => some (cb ctx name content isDir)) fuel st.offset.toNat st.ctx := by
  induction fuel generalizing st with
  | zero => rfl
  | succ fuel ih =>
    by_cases hOpens : Opens D st.offset.toNat
    · have hCb : onBytes D cb st.ctx (nameBuffer D st.offset.toNat st.name) (dataStart D st.offset.toNat)
          (mediaZipReadU32 D (st.offset.toNat + 18)) (isDirAt D st.offset.toNat) =
          cb st.ctx (nameAt D st.offset.toNat) (contentAt D st.offset.toNat) (isDirAt D st.offset.toNat) := by
        rw [onBytes, bufferName_nameBuffer hOpens]
        rfl
      obtain ⟨offset, log, hNext, -, hRun⟩ := foreachLoop_opens hSize hOpens rfl hCb fuel
      rw [foreachLoop_call hOpens, hRun, Option.bind_some]
      have hLe := (nextOffset_le D st.offset.toNat).trans hOpens.fits
      by_cases hRet : (cb st.ctx (nameAt D st.offset.toNat) (contentAt D st.offset.toNat) (isDirAt D st.offset.toNat)).2 ≠ 0
      · rw [if_pos hRet, if_pos hRet]
        rfl
      · rw [if_neg hRet, if_neg hRet, ← hNext]
        exact @ih ⟨offset, nameBuffer D st.offset.toNat st.name, _⟩ (by dsimp only; omega)
    · obtain ⟨log, hRun, -⟩ := foreachLoop_stops hOff hSize hOpens (onBytes D cb) fuel
      rw [hRun, foreachLoop_stops_eq hOpens]

/-! ### Whole runs -/

/-- Where a step wraps around, it leads to no further entry. -/
def StepsForward (D : List UInt8) : Prop :=
  ∀ off, Reached D off → Opens D off → entryLength D off < 2 ^ 32 ∨ ¬ Opens D (nextOffset D off)

theorem safe_call {off : Nat} (h : Opens D off) {log log' : List ZipAccess} (hQuiet : Quiet D.length log)
    (hSafe : Safe D.length (entryEnd D off) log') (name : Nat → UInt8) :
    Safe D.length off (log ++ [callAt D off name] ++ log') := by
  have hStart : off ≤ dataStart D off := by
    rw [dataStart]
    omega
  have hCall : (callAt D off name).Fits D.length := ⟨h.short, nameBuffer_end D off name, h.fits⟩
  rw [List.append_assoc]
  exact (hSafe.call hStart le_rfl hCall).after hQuiet

theorem foreachLoop_safe (hSize : D.length < 2 ^ 63) (hForward : StepsForward D) (cb : ZipCallback σ)
    (hOff : Reached D st.offset.toNat) (hFuel : D.length < st.offset.toNat + fuel) :
    ∃ ret, (foreachLoop D cb fuel st).result = .ok ret ∧
      Safe D.length st.offset.toNat (foreachLoop D cb fuel st).log := by
  induction fuel generalizing st with
  | zero => exact absurd hOff.le_length (by omega)
  | succ fuel ih =>
    by_cases hOpens : Opens D st.offset.toNat
    · rcases hCb : cb st.ctx (nameBuffer D st.offset.toNat st.name) (dataStart D st.offset.toNat)
        (mediaZipReadU32 D (st.offset.toNat + 18)) (isDirAt D st.offset.toNat) with ⟨ctx, ret⟩
      obtain ⟨offset, log, hNext, hQuiet, hRun⟩ := foreachLoop_opens hSize hOpens rfl hCb fuel
      rw [hRun]
      by_cases hRet : ret ≠ 0
      · rw [if_pos hRet]
        exact ⟨-eIo, rfl, safe_call hOpens hQuiet Quiet.nil.safe _⟩
      · rw [if_neg hRet]
        have hEnd : st.offset.toNat + 30 ≤ entryEnd D st.offset.toNat := by
          rw [entryEnd_eq, entryLength]
          omega
        have hWhole := hOpens.fits
        rcases hForward _ hOff hOpens with hStep | hStops
        · rw [nextOffset_eq hStep] at hNext
          have hReached := Reached.next hOff hOpens
          rw [nextOffset_eq hStep, ← hNext] at hReached
          obtain ⟨ret, hOk, hSafe⟩ := @ih ⟨offset, nameBuffer D st.offset.toNat st.name, ctx⟩ hReached
            (by dsimp only; omega)
          exact ⟨ret, hOk, safe_call hOpens hQuiet (hNext ▸ hSafe) _⟩
        · -- the step went back, and nothing is called from there
          have hBack := nextOffset_le D st.offset.toNat
          obtain ⟨fuel, rfl⟩ : ∃ m, fuel = m + 1 := ⟨fuel - 1, by omega⟩
          obtain ⟨log', hRest, hLog'⟩ := @foreachLoop_stops _ D ⟨offset, nameBuffer D st.offset.toNat st.name, ctx⟩
            (by dsimp only; omega) hSize (by dsimp only; rwa [hNext]) cb fuel
          rw [hRest]
          exact ⟨_, rfl, safe_call hOpens hQuiet hLog'.safe _⟩
    · obtain ⟨log, hRun, hQuiet⟩ := foreachLoop_stops hOff.le_length hSize hOpens cb fuel
      rw [hRun]
      exact ⟨_, rfl, hQuiet.safe⟩

end Rounds

def ApartRanges (c d : Nat × Nat) : Prop :=
  c.1 + c.2 ≤ d.1 ∨ d.1 + d.2 ≤ c.1

/-- With any callback the reader comes to an end, touches nothing outside, hands out a name that ends inside its buffer, and
ranges of the input that are apart. -/
def ScansSafely (D : List UInt8) : Prop :=
  ∀ (σ : Type) (cb : ZipCallback σ) (name : Nat → UInt8) (ctx : σ), ∃ fuel ret,
    (mediaZipForeach D cb fuel name ctx).result = .ok ret ∧
      (∀ e ∈ (mediaZipForeach D cb fuel name ctx).log, e.Fits D.length) ∧
      (ZipAccess.ranges (mediaZipForeach D cb fuel name ctx).log).Pairwise ApartRanges

/-- The reader is safe on every input on which no step that wraps around leads to a further entry. -/
theorem scansSafely_of_stepsForward (D : List UInt8) (hSize : D.length < 2 ^ 63) (hForward : StepsForward D) :
    ScansSafely D := by
  intro σ cb name ctx
  refine ⟨D.length + 1, ?_⟩
  unfold mediaZipForeach
  split
  · exact ⟨-eInval, rfl, nofun, List.Pairwise.nil⟩
  · obtain ⟨ret, hRet, hSafe⟩ := @foreachLoop_safe _ D ⟨0, name, ctx⟩ (D.length + 1) hSize hForward cb .start
      (Nat.lt_of_lt_of_le (Nat.lt_succ_self _) (Nat.le_add_left _ _))
    exact ⟨ret, hRet, hSafe.fits, hSafe.ordered.imp Or.inl⟩

theorem stepsForward_of_small {D : List UInt8} (h : D.length < 2 ^ 32) : StepsForward D := by
  intro off _ hOpens
  have hFits := hOpens.fits
  rw [entryEnd_eq] at hFits
  exact .inl (by omega)

theorem scansSafely_one_entry : ScansSafely (archiveOf [⟨['f'], [7], mediaZipCrc32 [7]⟩]) :=
  scansSafely_of_stepsForward _ (by decide) (stepsForward_of_small (by decide))

/-! ### A step of no bytes -/

def fullHeader : List UInt8 :=
  mediaZipWriteU32 localHeaderSig ++ [20, 0, 0, 0, 0, 0, 0, 0, 0, 0, 0, 0, 0, 0] ++ mediaZipWriteU32 (2 ^ 32 - 30) ++
    mediaZipWriteU32 (2 ^ 32 - 30) ++ [0, 0, 0, 0]

def fullArchive : List UInt8 := fullHeader ++ List.replicate (2 ^ 32 - 30) 0

theorem length_fullArchive : fullArchive.length = 2 ^ 32 := by
  rw [fullArchive, List.length_append, List.length_replicate]
  rfl

theorem fullHeader_fields (rest : List UInt8) :
    mediaZipReadU32 (fullHeader ++ rest) 0 = localHeaderSig ∧ mediaZipReadU16 (fullHeader ++ rest) 8 = 0 ∧
      mediaZipReadU32 (fullHeader ++ rest) 18 = 2 ^ 32 - 30 ∧ mediaZipReadU16 (fullHeader ++ rest) 26 = 0 ∧
      mediaZipReadU16 (fullHeader ++ rest) 28 = 0 :=
  ⟨readU32_field (by decide) rfl, readU16_field (by decide) rfl, readU32_field (by decide) rfl,
    readU16_field (by decide) rfl, readU16_field (by decide) rfl⟩

theorem opens_fullArchive : Opens fullArchive 0 ∧ nextOffset fullArchive 0 = 0 := by
  obtain ⟨hSig, hMethod, hComp, hName, hExtra⟩ := fullHeader_fields (List.replicate (2 ^ 32 - 30) 0)
  rw [← fullArchive] at hSig hMethod hComp hName hExtra
  have hLen : entryLength fullArchive 0 = 30 + 0 + 0 + (2 ^ 32 - 30) := by
    rw [entryLength, Nat.zero_add, Nat.zero_add, Nat.zero_add, hName, hExtra, hComp]
  refine ⟨⟨⟨?_, hSig⟩, hMethod, ?_, ?_⟩, ?_⟩
  · rw [length_fullArchive]
    decide
  · rw [entryEnd_eq, hLen, length_fullArchive]
    decide
  · rw [Nat.zero_add, hName]
    decide
  · rw [nextOffset, hLen]
    rfl

theorem fullArchive_endless (fuel : Nat) (name : Nat → UInt8) :
    (foreachLoop fullArchive (fun ctx _ _ _ _ => (ctx, 0)) fuel ⟨0, name, ()⟩).result = .error () := by
  have hSize : fullArchive.length < 2 ^ 63 := by
    rw [length_fullArchive]
    decide
  obtain ⟨hOpens, hNext⟩ := opens_fullArchive
  induction fuel generalizing name with
  | zero => rfl
  | succ fuel ih =>
    obtain ⟨offset, log, hTo, -, hRun⟩ := @foreachLoop_opens _ _ (fun ctx _ _ _ _ => (ctx, 0)) ⟨0, name, ()⟩ 0 () 0
      hSize hOpens rfl rfl fuel
    obtain rfl : offset = 0 := UInt64.toNat_inj.mp (hTo.trans hNext)
    rw [hRun, if_neg (by decide)]
    exact ih _

theorem fullArchive_not_safe : fullArchive.length < 2 ^ 63 ∧ ¬ ScansSafely fullArchive := by
  constructor
  · rw [length_fullArchive]
    decide
  · intro hSafe
    obtain ⟨fuel, ret, hOk, -, -⟩ := hSafe Unit (fun ctx _ _ _ _ => (ctx, 0)) (fun _ => 0) ()
    have hLong : ¬ UInt64.ofNat fullArchive.length < 30 := by
      rw [length_fullArchive]
      decide
    rw [mediaZipForeach, if_neg hLong, fullArchive_endless] at hOk
    cases hOk

end UnixOS.Media.Scan
