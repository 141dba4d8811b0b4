import Mathlib.Algebra.GroupWithZero.Nat
import UnixOS.Fs.RamfsTree
import UnixOS.Fs.Vfs

/-! # Reading a file of an ISO volume

`iso9660_read` of `kernel/fs/iso9660.c`, with `vfs_read` and `vfs_lseek` in front of it. A position is a `loff_t`,
the offset in the file a `uint32_t`. `content` is what the blocks of the device hold. The block reads of a call are
counted, and `fails k` says that number `k` of them fails.
-/

namespace UnixOS.Fs

namespace IsoNode

def diskIndex : IsoNode → Int
  | .mk _ diskIndex _ _ _ _ => diskIndex

def extent : IsoNode → Nat
  | .mk _ _ extent _ _ _ => extent.toNat

def size : IsoNode → Nat
  | .mk _ _ _ size _ _ => size.toNat

theorem size_lt (node : IsoNode) : node.size < 2 ^ 32 := by
  cases node
  exact UInt32.toNat_lt _

end IsoNode

namespace Iso9660

/-! ### The code -/

/-- The loop of `iso9660_read` from round `k` on; `buf` is what was stored so far. The result says whether the loop
came to its end. -/
def readLoop (content : Nat → Nat → UInt8) (fails : Nat → Bool) (extent toCopy : Nat) :
    Nat → Nat → Nat → List UInt8 → List UInt8 × Bool
  | 0, _, _, buf => (buf, true)
  | fuel + 1, k, fileOffset, buf =>
    if buf.length < toCopy then
      let blockIndex := fileOffset / 2048
      let blockOffset := fileOffset % 2048
      let chunk := min ((toCopy - buf.length) % 2 ^ 32) (2048 - blockOffset)
      if fails k then (buf, false)
      else
        let sector := content ((extent + blockIndex) % 2 ^ 32)
        readLoop content fails extent toCopy fuel (k + 1) ((fileOffset + chunk) % 2 ^ 32)
          (buf ++ (List.range chunk).map fun i => sector (blockOffset + i))
    else (buf, true)

/-- What a call of `read` is given: the size of the buffer, whether there is memory for the sector, and which of the
block reads fail. -/
structure ReadCall where
  count : Nat
  kmalloc : Bool
  fails : Nat → Bool

/-- The result, the bytes stored and the position afterwards. -/
def iso9660Read (content : Nat → Nat → UInt8) (node : IsoNode) (c : ReadCall) (pos : Int) : Int × List UInt8 × Int :=
  if node.isDir then (-eIsDir, [], pos)
  else if pos < 0 then (-eInval, [], pos)
  else if node.size = 0 then (0, [], pos)
  else if node.diskIndex < 0 then (-eIo, [], pos)
  else
    let fileOffset := (pos % 2 ^ 32).toNat
    if node.size ≤ fileOffset then (0, [], pos)
    else
      let toCopy := min c.count (node.size - fileOffset)
      if c.kmalloc = false then (-eNoMem, [], pos)
      else
        match readLoop content c.fails node.extent toCopy toCopy 0 fileOffset [] with
        | (buf, false) => (if 0 < buf.length then (buf.length : Int) else -eIo, buf, pos)
        | (buf, true) => (toCopy, buf, pos + toCopy)

/-- An open file of an ISO volume: the node behind it and its position. -/
structure OpenIso where
  node : IsoNode
  fPos : Int

/-- The operation table of a directory has no `read`. -/
def OpenIso.vfsRead (content : Nat → Nat → UInt8) (f : OpenIso) (c : ReadCall) : OpenIso × Int × List UInt8 :=
  if f.node.isDir then (f, -eInval, [])
  else
    let (ret, buf, pos) := iso9660Read content f.node c f.fPos
    ({ f with fPos := pos }, ret, buf)

def OpenIso.vfsLseek (f : OpenIso) (offset whence : Int) : OpenIso × Int :=
  let newPos :=
    if whence = 0 then some offset
    else if whence = 1 then some (toLoff (f.fPos + offset))
    else if whence = 2 then some (toLoff (f.node.size + offset))
    else none
  match newPos with
  | none => (f, -eInval)
  | some newPos => if newPos < 0 then (f, -eInval) else ({ f with fPos := newPos }, newPos)

/-! ### Faithful reads -/

def byteOf (content : Nat → Nat → UInt8) (node : IsoNode) (i : Nat) : UInt8 :=
  content (node.extent + i / 2048) (i % 2048)

def byteRead (content : Nat → Nat → UInt8) (extent i : Nat) : UInt8 :=
  content ((extent + i / 2048) % 2 ^ 32) (i % 2048)

/-- Block `k`, counted from the block of `p` on, holds bytes of the range of `n` bytes from `p` on. -/
def Touches (p n k : Nat) : Prop := 0 < n ∧ (p / 2048 + k) * 2048 < p + n

structure Faithful (content : Nat → Nat → UInt8) (node : IsoNode) (c : ReadCall) (p r : Nat) (buf : List UInt8)
    (pos : Int) : Prop where
  stored : buf.length = r
  bytes : ∀ i < r, p + i < node.size ∧ buf[i]? = some (byteOf content node (p + i))
  moved : pos = p + r
  ends : r = 0 → node.size ≤ p ∨ c.count = 0
  full : (∀ k, Touches p (min c.count (node.size - p)) k → c.fails k = false) → r = min c.count (node.size - p)

def ReadFaithful (content : Nat → Nat → UInt8) (node : IsoNode) (c : ReadCall) (p : Nat) : Prop :=
  ∀ r : Nat, (iso9660Read content node c p).1 = r →
    Faithful content node c p r (iso9660Read content node c p).2.1 (iso9660Read content node c p).2.2

/-- A call that does not come to the loop, or has nothing to do there. -/
def Idle (node : IsoNode) (c : ReadCall) (p : Nat) : Prop :=
  node.isDir = true ∨ node.diskIndex < 0 ∨ node.size ≤ p % 2 ^ 32 ∨ c.count = 0 ∨ c.kmalloc = false

/-- The position fits in 32 bits, no block read of the range fails, and no block number of the range wraps to a block
with other bytes. -/
structure Clean (content : Nat → Nat → UInt8) (node : IsoNode) (c : ReadCall) (p : Nat) : Prop where
  narrow : p < 2 ^ 32
  reads : ∀ k, Touches p (min c.count (node.size - p)) k → c.fails k = false
  blocks : ∀ i < min c.count (node.size - p), byteRead content node.extent (p + i) = byteOf content node (p + i)

def bytesRead (content : Nat → Nat → UInt8) (extent p n : Nat) : List UInt8 :=
  (List.range n).map fun i => byteRead content extent (p + i)

/-- The bytes stored after `k` rounds of a read of `n` bytes at `p`. -/
def reached (p n k : Nat) : Nat := min n ((p / 2048 + k) * 2048 - p)

/-! ### The loop -/

section Loop

variable {content : Nat → Nat → UInt8} {fails : Nat → Bool} {extent p n k : Nat}

theorem length_bytesRead : (bytesRead content extent p n).length = n := by
  rw [bytesRead, List.length_map, List.length_range]

theorem reached_zero : reached p n 0 = 0 := by
  unfold reached
  omega

theorem reached_lt_iff : reached p n k < n ↔ Touches p n k := by
  unfold reached Touches
  omega

theorem reached_pos (hk : 0 < k) (hn : 0 < n) : 0 < reached p n k := by
  unfold reached
  omega

theorem reached_succ (h : reached p n k < n) :
    reached p n (k + 1) = reached p n k + min (n - reached p n k) (2048 - (p + reached p n k) % 2048) := by
  unfold reached at *
  omega

theorem bytesRead_append {m chunk : Nat} (h : chunk ≤ 2048 - (p + m) % 2048) :
    (bytesRead content extent p m ++ (List.range chunk).map fun i =>
      content ((extent + (p + m) / 2048) % 2 ^ 32) ((p + m) % 2048 + i)) = bytesRead content extent p (m + chunk) := by
  unfold bytesRead
  rw [List.range_add, List.map_append, List.map_map]
  refine congrArg _ (List.map_congr_left fun i hi => ?_)
  have hLt : i < chunk := List.mem_range.mp hi
  have hBlock : (p + (m + i)) / 2048 = (p + m) / 2048 := by omega
  have hOffset : (p + (m + i)) % 2048 = (p + m) % 2048 + i := by omega
  rw [Function.comp, byteRead, hBlock, hOffset]

theorem readLoop_spec (hFits : p + n < 2 ^ 32) (fuel : Nat) (k : Nat) (hFuel : n ≤ fuel + reached p n k) :
    ∃ m, k ≤ m ∧ (∀ j, k ≤ j → j < m → fails j = false) ∧
      ((reached p n m = n ∧ readLoop content fails extent n fuel k (p + reached p n k)
          (bytesRead content extent p (reached p n k)) = (bytesRead content extent p n, true)) ∨
        (Touches p n m ∧ fails m = true ∧ readLoop content fails extent n fuel k (p + reached p n k)
          (bytesRead content extent p (reached p n k)) = (bytesRead content extent p (reached p n m), false))) := by
  have hDone : ∀ fuel k, reached p n k = n → readLoop content fails extent n fuel k (p + reached p n k)
      (bytesRead content extent p (reached p n k)) = (bytesRead content extent p n, true) := by
    intro fuel k hAll
    cases fuel with
    | zero => rw [hAll, readLoop]
    | succ fuel => rw [hAll, readLoop, length_bytesRead, if_neg (Nat.lt_irrefl n)]
  have hLe : ∀ k, reached p n k ≤ n := fun k => Nat.min_le_left _ _
  induction fuel generalizing k with
  | zero =>
    have hAll : reached p n k = n := Nat.le_antisymm (hLe k) (by omega)
    exact ⟨k, Nat.le_refl k, fun j h h' => absurd h' (by omega), Or.inl ⟨hAll, hDone 0 k hAll⟩⟩
  | succ fuel ih =>
    rcases Nat.lt_or_ge (reached p n k) n with hMore | hAll
    · rcases hFails : fails k with _ | _
      · have hStep := reached_succ hMore
        have hPos : reached p n k < reached p n (k + 1) := by
          have hRem := Nat.mod_lt (p + reached p n k) (show 0 < 2048 by decide)
          omega
        obtain ⟨m, hm, hRead, hEnd⟩ := ih (k + 1) (by omega)
        refine ⟨m, by omega, fun j hj hjm => ?_, ?_⟩
        · rcases Nat.eq_or_lt_of_le hj with rfl | hLater
          · exact hFails
          · exact hRead j hLater hjm
        · have hRound : readLoop content fails extent n (fuel + 1) k (p + reached p n k)
              (bytesRead content extent p (reached p n k)) =
              readLoop content fails extent n fuel (k + 1) (p + reached p n (k + 1))
                (bytesRead content extent p (reached p n (k + 1))) := by
            have hNext := hLe (k + 1)
            rw [readLoop, length_bytesRead, if_pos hMore]
            dsimp only
            rw [hFails, if_neg Bool.false_ne_true, Nat.mod_eq_of_lt (show n - reached p n k < 2 ^ 32 by omega),
              bytesRead_append (Nat.min_le_right _ _), ← hStep, Nat.add_assoc, ← hStep,
              Nat.mod_eq_of_lt (show p + reached p n (k + 1) < 2 ^ 32 by omega)]
          rw [hRound]
          exact hEnd
      · refine ⟨k, Nat.le_refl k, fun j h h' => absurd h' (by omega), Or.inr ⟨reached_lt_iff.mp hMore, hFails, ?_⟩⟩
        rw [readLoop, length_bytesRead, if_pos hMore]
        dsimp only
        rw [hFails, if_pos rfl]
    · have hEq : reached p n k = n := Nat.le_antisymm (hLe k) hAll
      exact ⟨k, Nat.le_refl k, fun j h h' => absurd h' (by omega), Or.inl ⟨hEq, hDone _ k hEq⟩⟩

end Loop

/-! ### One call -/

section Call

variable {content : Nat → Nat → UInt8} {node : IsoNode} {c : ReadCall} {p : Nat}

theorem iso9660Read_idle (h : Idle node c p) :
    (∃ e : Int, e < 0 ∧ iso9660Read content node c p = (e, [], ↑p)) ∨
      ((node.size ≤ p % 2 ^ 32 ∨ c.count = 0) ∧ iso9660Read content node c p = (0, [], ↑p)) := by
  have hLow : ((p : Int) % 2 ^ 32).toNat = p % 2 ^ 32 := by omega
  unfold iso9660Read
  split
  · exact Or.inl ⟨_, by decide, rfl⟩
  split
  · exact Or.inl ⟨_, by decide, rfl⟩
  split
  · exact Or.inr ⟨Or.inl (by omega), rfl⟩
  split
  · exact Or.inl ⟨_, by decide, rfl⟩
  dsimp only
  rw [hLow]
  split
  · exact Or.inr ⟨Or.inl ‹_›, rfl⟩
  split
  · exact Or.inl ⟨_, by decide, rfl⟩
  obtain hDir | hDisk | hEnd | hCount | hMem := h
  · exact absurd hDir ‹_›
  · exact absurd hDisk ‹_›
  · exact absurd hEnd ‹_›
  · refine Or.inr ⟨Or.inr hCount, ?_⟩
    rw [hCount, Nat.zero_min, readLoop]
    rfl
  · exact absurd hMem ‹_›

theorem iso9660Read_busy {low n : Nat} (h : ¬ Idle node c p) (hLow : p % 2 ^ 32 = low)
    (hn : min c.count (node.size - low) = n) :
    0 < n ∧ n ≤ c.count ∧ low + n ≤ node.size ∧ ∃ m, (∀ j < m, c.fails j = false) ∧
      ((reached low n m = n ∧ iso9660Read content node c p = ((n : Int), bytesRead content node.extent low n, (p : Int) + n)) ∨
        (Touches low n m ∧ c.fails m = true ∧ iso9660Read content node c p =
          (if 0 < reached low n m then ↑(reached low n m) else -eIo, bytesRead content node.extent low (reached low n m),
            ↑p))) := by
  simp only [Idle, not_or, Bool.not_eq_true, Bool.not_eq_false] at h
  obtain ⟨hFile, hDisk, hEnd, hCount, hMem⟩ := h
  have hNarrow : ((p : Int) % 2 ^ 32).toNat = low := by omega
  have hSize := node.size_lt
  rw [hLow] at hEnd
  obtain ⟨m, -, hRead, hLoop⟩ := @readLoop_spec content c.fails node.extent low n (by omega) n 0 (by omega)
  rw [reached_zero, Nat.add_zero, show bytesRead content node.extent low 0 = [] from rfl] at hLoop
  refine ⟨by omega, by omega, by omega, m, fun j hj => hRead j (Nat.zero_le j) hj, ?_⟩
  unfold iso9660Read
  rw [hFile, if_neg Bool.false_ne_true, if_neg (by omega), if_neg (by omega), if_neg hDisk]
  dsimp only
  rw [hNarrow, if_neg hEnd, hMem, if_neg Bool.false_ne_true.symm, hn]
  rcases hLoop with ⟨hAll, hEq⟩ | ⟨hTouches, hFails, hEq⟩
  · rw [hEq]
    exact Or.inl ⟨hAll, rfl⟩
  · rw [hEq]
    refine Or.inr ⟨hTouches, hFails, ?_⟩
    dsimp only
    rw [length_bytesRead]

theorem getElem?_bytesRead {extent low n i : Nat} (h : i < n) :
    (bytesRead content extent low n)[i]? = some (byteRead content extent (low + i)) := by
  rw [bytesRead, List.getElem?_map, List.getElem?_range h]
  rfl

theorem readFaithful_iff :
    ReadFaithful content node c p ↔ Idle node c p ∨ c.fails 0 = true ∨ Clean content node c p := by
  by_cases hIdle : Idle node c p
  · refine iff_of_true ?_ (Or.inl hIdle)
    intro r hr
    rcases iso9660Read_idle hIdle with ⟨e, he, hRun⟩ | ⟨hNothing, hRun⟩
    · rw [hRun] at hr
      dsimp only at hr
      omega
    · rw [hRun] at hr ⊢
      obtain rfl : r = 0 := by
        dsimp only at hr
        omega
      have hEnds : node.size ≤ p ∨ c.count = 0 := hNothing.imp_left fun h => h.trans (Nat.mod_le _ _)
      exact ⟨rfl, nofun, by simp, fun _ => hEnds, fun _ => by omega⟩
  rw [or_iff_right hIdle]
  obtain ⟨hPos, hCount, hEnd, m, hRead, hRun⟩ := @iso9660Read_busy content node c p _ _ hIdle rfl rfl
  have hSize := node.size_lt
  rcases hRun with ⟨hAll, hRun⟩ | ⟨hTouches, hFails, hRun⟩
  · have hFirst : c.fails 0 = false := by
      refine hRead 0 (Nat.pos_of_ne_zero fun hZero => ?_)
      rw [hZero, reached_zero] at hAll
      omega
    rw [hFirst, or_iff_right Bool.false_ne_true]
    constructor
    · intro h
      have hLaw := h _ (congrArg Prod.fst hRun)
      rw [hRun] at hLaw
      have hNarrow : p < 2 ^ 32 := by
        have hHere := (hLaw.bytes 0 hPos).1
        omega
      rw [Nat.mod_eq_of_lt hNarrow] at hAll hLaw hEnd
      refine ⟨hNarrow, fun k hk => hRead k (Nat.lt_of_not_le fun hLater => ?_), fun i hi => ?_⟩
      · have hBeyond := reached_lt_iff.mpr hk
        unfold reached at hBeyond hAll
        omega
      · have hHere := (hLaw.bytes i hi).2
        rw [getElem?_bytesRead hi, Option.some_inj] at hHere
        exact hHere
    · intro hClean r hr
      rw [hRun] at hr ⊢
      rw [Nat.mod_eq_of_lt hClean.narrow] at hr hPos hEnd ⊢
      obtain rfl : min c.count (node.size - p) = r := by
        dsimp only at hr
        omega
      refine ⟨length_bytesRead, fun i hi => ⟨by omega, ?_⟩, rfl, fun h => absurd h (by omega), fun _ => rfl⟩
      rw [getElem?_bytesRead hi, hClean.blocks i hi]
  · rcases Nat.eq_zero_or_pos m with rfl | hLater
    · refine iff_of_true (fun r hr => ?_) (Or.inl hFails)
      rw [hRun, reached_zero, if_neg (Nat.lt_irrefl 0)] at hr
      simp only [eIo] at hr
      omega
    · rw [hRead 0 hLater, or_iff_right Bool.false_ne_true]
      have hSome := @reached_pos (p % 2 ^ 32) _ m hLater hPos
      rw [if_pos hSome] at hRun
      refine iff_of_false (fun h => ?_) (fun hClean => ?_)
      · have hMoved := (h _ (congrArg Prod.fst hRun)).moved
        rw [hRun] at hMoved
        dsimp only at hMoved
        omega
      · rw [Nat.mod_eq_of_lt hClean.narrow] at hTouches
        rw [hClean.reads m hTouches] at hFails
        exact Bool.false_ne_true hFails

end Call

/-! ### Repeated reads -/

/-- The file after one call for each member of the list, and the bytes stored by the calls that did not fail. -/
def OpenIso.readAll (content : Nat → Nat → UInt8) (f : OpenIso) : List ReadCall → OpenIso × List UInt8
  | [] => (f, [])
  | c :: calls =>
    let (f, ret, buf) := f.vfsRead content c
    let (f, rest) := f.readAll content calls
    (f, if 0 ≤ ret then buf ++ rest else rest)

def OpenIso.AllMeet (content : Nat → Nat → UInt8) (f : OpenIso) : List ReadCall → Prop
  | [] => True
  | c :: calls =>
    (Idle f.node c f.fPos.toNat ∨ c.fails 0 = true ∨ Clean content f.node c f.fPos.toNat) ∧
      (f.vfsRead content c).1.AllMeet content calls

section Runs

variable {content : Nat → Nat → UInt8} {node : IsoNode} {c : ReadCall} {p : Nat}

theorem iso9660Read_error (h : (iso9660Read content node c p).1 < 0) : (iso9660Read content node c p).2.2 = p := by
  by_cases hIdle : Idle node c p
  · rcases iso9660Read_idle hIdle with ⟨e, -, hRun⟩ | ⟨-, hRun⟩ <;> rw [hRun]
  · obtain ⟨-, -, -, m, -, ⟨-, hRun⟩ | ⟨-, -, hRun⟩⟩ := @iso9660Read_busy content node c p _ _ hIdle rfl rfl
    · rw [hRun] at h
      dsimp only at h
      omega
    · rw [hRun]

theorem vfsRead_exact (h : Idle node c p ∨ c.fails 0 = true ∨ Clean content node c p) :
    (((OpenIso.mk node p).vfsRead content c).1 = ⟨node, p⟩ ∧ ((OpenIso.mk node p).vfsRead content c).2.1 < 0) ∨
      ∃ r : Nat, (OpenIso.mk node p).vfsRead content c =
        (⟨node, (p + r : Nat)⟩, (r : Int), (List.range r).map fun i => byteOf content node (p + i)) ∧
        (r = 0 ∨ p + r ≤ node.size) := by
  unfold OpenIso.vfsRead
  dsimp only
  split
  · exact Or.inl ⟨rfl, show -eInval < 0 by decide⟩
  rcases Int.lt_or_le (iso9660Read content node c p).1 0 with hNeg | hNonneg
  · exact Or.inl ⟨congrArg (OpenIso.mk node) (iso9660Read_error hNeg), hNeg⟩
  · obtain ⟨r, hr⟩ := Int.eq_ofNat_of_zero_le hNonneg
    have hLaw := readFaithful_iff.mpr h r hr
    refine Or.inr ⟨r, ?_, ?_⟩
    · have hBuf : (iso9660Read content node c p).2.1 = (List.range r).map fun i => byteOf content node (p + i) := by
        refine List.ext_getElem? fun i => ?_
        rcases Nat.lt_or_ge i r with hi | hi
        · rw [(hLaw.bytes i hi).2, List.getElem?_map, List.getElem?_range hi]
          rfl
        · rw [List.getElem?_eq_none (by rwa [hLaw.stored]), List.getElem?_eq_none (by simpa using hi)]
      rw [hr, hBuf, hLaw.moved, Int.natCast_add]
    · rcases Nat.eq_zero_or_pos r with hZero | hPos
      · exact Or.inl hZero
      · have hLast := (hLaw.bytes (r - 1) (by omega)).1
        exact Or.inr (by omega)

theorem readAll_exact (calls : List ReadCall) (h : (OpenIso.mk node p).AllMeet content calls) :
    ∃ n : Nat, (OpenIso.mk node p).readAll content calls =
      (⟨node, (p + n : Nat)⟩, (List.range n).map fun i => byteOf content node (p + i)) ∧
      (n = 0 ∨ p + n ≤ node.size) := by
  induction calls generalizing p with
  | nil => exact ⟨0, rfl, Or.inl rfl⟩
  | cons c calls ih =>
    obtain ⟨hHere, hRest⟩ := h
    have hCall : Idle node c p ∨ c.fails 0 = true ∨ Clean content node c p := hHere
    unfold OpenIso.readAll
    rcases vfsRead_exact hCall with ⟨hSame, hNeg⟩ | ⟨r, hRead, hWithin⟩
    · rw [hSame] at hRest
      obtain ⟨n, hRun, hEnd⟩ := ih hRest
      refine ⟨n, ?_, hEnd⟩
      dsimp only
      rw [hSame, hRun, if_neg (Int.not_le.mpr hNeg)]
    · rw [hRead] at hRest
      obtain ⟨n, hRun, hEnd⟩ := ih hRest
      refine ⟨r + n, ?_, by omega⟩
      dsimp only
      rw [hRead]
      dsimp only
      rw [hRun, if_pos (Int.natCast_nonneg r), List.range_add, List.map_append, List.map_map, Nat.add_assoc]
      refine congrArg (Prod.mk _) (congrArg _ (List.map_congr_left fun i _ => ?_))
      rw [Function.comp, Nat.add_assoc]

end Runs

/-- When a read at `p` is faithful, and what reads that meet the condition return together: the next bytes of the
file, each once. -/
theorem iso9660_read_faithful_iff (content : Nat → Nat → UInt8) (node : IsoNode) (p : Nat) :
    (∀ c, ReadFaithful content node c p ↔ Idle node c p ∨ c.fails 0 = true ∨ Clean content node c p) ∧
      ∀ calls, (OpenIso.mk node p).AllMeet content calls → ∃ n : Nat, (OpenIso.mk node p).readAll content calls =
        (⟨node, (p + n : Nat)⟩, (List.range n).map fun i => byteOf content node (p + i)) ∧
        (n = 0 ∨ p + n ≤ node.size) :=
  ⟨fun _ => readFaithful_iff, readAll_exact⟩

def twoBlocks : IsoNode := .mk ['A'] 0 20 4096 false []

/-- The second block of a file cannot be read: the bytes of the first are returned and the position stays. Beyond 32
bits the bytes from the start of the file come again. -/
theorem partial_read_stays :
    (∀ content, ¬ ReadFaithful content twoBlocks ⟨4096, true, fun k => k == 1⟩ 0) ∧
      ((OpenIso.mk twoBlocks 0).vfsLseek (2 ^ 32) 0).1.fPos = 2 ^ 32 ∧
      ∀ content, ¬ ReadFaithful content twoBlocks ⟨1, true, fun _ => false⟩ (2 ^ 32) := by
  refine ⟨fun content h => ?_, by decide, fun content h => ?_⟩
  · rcases readFaithful_iff.mp h with hIdle | hFirst | hClean
    · exact absurd hIdle (by unfold Idle; decide)
    · cases hFirst
    · exact absurd (hClean.reads 1 ⟨by decide, by decide⟩) (by decide)
  · rcases readFaithful_iff.mp h with hIdle | hFirst | hClean
    · exact absurd hIdle (by unfold Idle; decide)
    · cases hFirst
    · exact absurd hClean.narrow (by decide)

end Iso9660

end UnixOS.Fs
