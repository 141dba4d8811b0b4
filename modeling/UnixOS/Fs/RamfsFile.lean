import UnixOS.Fs.Ramfs

/-! # A RAM file is a byte list with a position

The buffer of an inode may be longer than the file and hold anything beyond its size, also what a
truncation left there. The file is the bytes below `size`; every write clears the gap up to its
position before it puts its bytes down, so the rest of the buffer never shows.
-/

namespace UnixOS.Fs

open ByteMemory

structure ByteFile where
  content : List UInt8
  pos : Nat

/-- `buf` over `content` from `p` on, with zeros in a gap beyond the old end. -/
def overwrite (content : List UInt8) (p : Nat) (buf : List UInt8) : List UInt8 :=
  (content ++ List.replicate (p - content.length) 0).take p ++ buf ++ content.drop (p + buf.length)

theorem length_overwrite (content : List UInt8) (p : Nat) (buf : List UInt8) :
    (overwrite content p buf).length = max content.length (p + buf.length) := by
  simp only [overwrite, List.length_append, List.length_take, List.length_replicate, List.length_drop]
  omega

theorem getD_overwrite (content : List UInt8) (p : Nat) (buf : List UInt8) (i : Nat) :
    (overwrite content p buf).getD i 0 =
      if p ≤ i ∧ i < p + buf.length then buf.getD (i - p) 0 else content.getD i 0 := by
  have hHead : ((content ++ List.replicate (p - content.length) 0).take p).length = p := by
    simp only [List.length_take, List.length_append, List.length_replicate]
    omega
  simp only [overwrite, List.getD_eq_getElem?_getD]
  by_cases hBelow : i < p
  · rw [List.append_assoc, List.getElem?_append_left (by omega), List.getElem?_take_of_lt hBelow,
      if_neg (by omega)]
    by_cases hOld : i < content.length
    · rw [List.getElem?_append_left hOld]
    · rw [List.getElem?_append_right (by omega), List.getElem?_eq_none (by omega : content.length ≤ i),
        List.getElem?_replicate]
      split <;> rfl
  · by_cases hInside : i < p + buf.length
    · rw [List.getElem?_append_left (by simp only [List.length_append]; omega),
        List.getElem?_append_right (by omega), hHead, if_pos (by omega)]
    · rw [List.getElem?_append_right (by simp only [List.length_append]; omega), List.getElem?_drop,
        if_neg (by omega), List.length_append, hHead]
      congr 2
      omega

inductive FileOp where
  | read (count : Nat)
  | write (buf : List UInt8) (kmalloc : Nat → Option Mem)
  | lseek (offset whence : Int)

structure Reply where
  ret : Int
  bytes : List UInt8
deriving DecidableEq, Repr

def File.step (f : File) : FileOp → File × Reply
  | .read count => ((vfsRead f count).1, ⟨(vfsRead f count).2.1, (vfsRead f count).2.2⟩)
  | .write buf kmalloc => ((vfsWrite f buf kmalloc).1, ⟨(vfsWrite f buf kmalloc).2, []⟩)
  | .lseek offset whence => ((vfsLseek f offset whence).1, ⟨(vfsLseek f offset whence).2, []⟩)

def File.run (f : File) : List FileOp → File × List Reply
  | [] => (f, [])
  | op :: ops => (((f.step op).1.run ops).1, (f.step op).2 :: ((f.step op).1.run ops).2)

def roundUp (n : Nat) : Nat := (n + ramfsBlockSize - 1) / ramfsBlockSize * ramfsBlockSize

def ByteFile.target (a : ByteFile) (offset whence : Int) : Option Int :=
  if whence = 0 then some offset
  else if whence = 1 then some (a.pos + offset)
  else if whence = 2 then some (a.content.length + offset)
  else none

def ByteFile.chunk (a : ByteFile) (count : Nat) : List UInt8 := (a.content.drop a.pos).take count

inductive ByteFile.Step (a : ByteFile) : FileOp → Reply → ByteFile → Prop
  | read (count : Nat) :
    a.Step (.read count) ⟨(a.chunk count).length, a.chunk count⟩
      ⟨a.content, a.pos + (a.chunk count).length⟩
  | write (buf : List UInt8) (kmalloc : Nat → Option Mem) :
    a.Step (.write buf kmalloc) ⟨buf.length, []⟩
      ⟨overwrite a.content a.pos buf, a.pos + buf.length⟩
  | writeFails (buf : List UInt8) (kmalloc : Nat → Option Mem)
      (hNull : kmalloc (roundUp (a.pos + buf.length)) = none) :
    a.Step (.write buf kmalloc) ⟨-eNoMem, []⟩ a
  | lseek (offset whence : Int) (p : Nat) (hTarget : a.target offset whence = some (p : Int)) :
    a.Step (.lseek offset whence) ⟨p, []⟩ ⟨a.content, p⟩
  | lseekFails (offset whence : Int) (hTarget : ∀ p ∈ a.target offset whence, p < 0) :
    a.Step (.lseek offset whence) ⟨-eInval, []⟩ a

inductive ByteFile.Run : ByteFile → List FileOp → List Reply → ByteFile → Prop
  | nil (a : ByteFile) : Run a [] [] a
  | cons {a b c : ByteFile} {op : FileOp} {ops : List FileOp} {r : Reply} {rs : List Reply}
      (hStep : a.Step op r b) (hRun : Run b ops rs c) : Run a (op :: ops) (r :: rs) c

def File.InRange (f : File) : FileOp → Prop
  | .read count => f.fPos + count < 2 ^ 63
  | .write buf _ => buf ≠ [] ∧ f.fPos + buf.length < 2 ^ 63
  | .lseek offset whence => -2 ^ 63 ≤ offset ∧ offset < 2 ^ 63 ∧
    (whence = 1 → f.fPos + offset < 2 ^ 63) ∧ (whence = 2 → f.iSize + offset < 2 ^ 63)

instance (f : File) : ∀ op, Decidable (f.InRange op)
  | .read count => inferInstanceAs (Decidable (f.fPos + count < 2 ^ 63))
  | .write buf _ => inferInstanceAs (Decidable (buf ≠ [] ∧ f.fPos + buf.length < 2 ^ 63))
  | .lseek offset whence => inferInstanceAs (Decidable (-2 ^ 63 ≤ offset ∧ offset < 2 ^ 63 ∧
    (whence = 1 → f.fPos + offset < 2 ^ 63) ∧ (whence = 2 → f.iSize + offset < 2 ^ 63)))

def File.InRangeAlong (f : File) : List FileOp → Prop
  | [] => True
  | op :: ops => f.InRange op ∧ (f.step op).1.InRangeAlong ops

namespace RamfsInode

def byte (inode : RamfsInode) (i : Nat) : UInt8 := inode.data.getD (fun _ => 0) i

def bytes (inode : RamfsInode) : List UInt8 := (List.range inode.size).map inode.byte

@[simp] theorem length_bytes (inode : RamfsInode) : inode.bytes.length = inode.size := by
  simp [bytes]

theorem getD_bytes (inode : RamfsInode) {i : Nat} (h : i < inode.size) :
    inode.bytes.getD i 0 = inode.byte i := by
  simp [bytes, h]

structure Sound (inode : RamfsInode) : Prop where
  size_lt : inode.size < 2 ^ 63
  fits : inode.size ≤ inode.dataCapacity
  null : inode.data = none → inode.dataCapacity = 0

end RamfsInode

structure Refines (f : File) (a : ByteFile) : Prop where
  sound : f.inode.Sound
  regular : sIsDir f.inode.mode = false
  content : f.inode.bytes = a.content
  pos : f.fPos = a.pos
  pos_lt : a.pos < 2 ^ 63
  iSize : f.iSize = f.inode.size

theorem toSize_of_nonneg {x : Int} (h : 0 ≤ x) (hLt : x < 2 ^ 64) : toSize x = x.toNat := by
  rw [toSize, Int.emod_eq_of_lt h hLt]

theorem toLoff_of_range {x : Int} (h : -2 ^ 63 ≤ x) (hLt : x < 2 ^ 63) : toLoff x = x := by
  rw [toLoff, Int.bmod_def]
  omega

section Steps

variable {f : File} {a : ByteFile}

theorem Refines.length_content (h : Refines f a) : a.content.length = f.inode.size := by
  rw [← h.content, RamfsInode.length_bytes]

theorem ramfsRead_refines (h : Refines f a) {count : Nat} (hRange : f.InRange (.read count)) :
    ramfsRead f.inode count f.fPos =
      (a.chunk count, ((a.chunk count).length : Int), (a.pos + (a.chunk count).length : Int)) := by
  have hLen := h.length_content
  have hSize := h.sound.size_lt
  have hPosLt := h.pos_lt
  have hEmpty : f.inode.size ≤ a.pos → a.chunk count = [] := by
    intro hPast
    rw [ByteFile.chunk, List.drop_eq_nil_of_le (by omega), List.take_nil]
  rw [ramfsRead, h.pos]
  split
  · rename_i hNull
    rw [hEmpty (by have := h.sound.null hNull; have := h.sound.fits; omega)]
    simp
  · rename_i data hData
    rw [toLoff_of_range (by omega) (by omega)]
    split
    · rename_i hPast
      rw [hEmpty (by omega)]
      simp
    · rename_i hBefore
      simp only [File.InRange, h.pos] at hRange
      have hAvail : toSize (f.inode.size - a.pos) = f.inode.size - a.pos := by
        rw [toSize_of_nonneg (by omega) (by omega)]
        omega
      have hPosSize : toSize a.pos = a.pos := by
        rw [toSize_of_nonneg (by omega) (by omega)]
        omega
      have hChunk : (a.chunk count).length = min count (f.inode.size - a.pos) := by
        simp only [ByteFile.chunk, List.length_take, List.length_drop]
        omega
      simp only [hAvail, hPosSize, hChunk]
      rw [show (if count < f.inode.size - a.pos then count else f.inode.size - a.pos) =
        min count (f.inode.size - a.pos) by split <;> omega]
      rw [toLoff_of_range (by omega) (by omega), toLoff_of_range (by omega) (by omega)]
      refine congrArg₂ Prod.mk ?_ rfl
      apply List.ext_getElem
      · simp [hChunk]
      · intro i hi _
        simp only [List.length_map, List.length_range] at hi
        simp [ByteFile.chunk, ← h.content, RamfsInode.bytes, RamfsInode.byte, hData]

theorem read_step (h : Refines f a) {count : Nat} (hRange : f.InRange (.read count)) :
    ∃ b, a.Step (.read count) (f.step (.read count)).2 b ∧ Refines (f.step (.read count)).1 b := by
  have hRead := ramfsRead_refines h hRange
  refine ⟨⟨a.content, a.pos + (a.chunk count).length⟩, ?_, ?_⟩
  · simp only [File.step, vfsRead, h.regular, hRead, Bool.false_eq_true, if_false]
    exact ByteFile.Step.read count
  · simp only [File.step, vfsRead, h.regular, hRead, Bool.false_eq_true, if_false]
    simp only [File.InRange, h.pos] at hRange
    have hLe : (a.chunk count).length ≤ count := List.length_take_le ..
    exact ⟨h.sound, h.regular, h.content, (Int.natCast_add _ _).symm, by simp only; omega, h.iSize⟩

theorem lseek_step (h : Refines f a) {offset whence : Int}
    (hRange : f.InRange (.lseek offset whence)) :
    ∃ b, a.Step (.lseek offset whence) (f.step (.lseek offset whence)).2 b ∧
      Refines (f.step (.lseek offset whence)).1 b := by
  obtain ⟨hLow, hHigh, hCur, hEnd⟩ := hRange
  have hPos := h.pos_lt
  have hSize := h.sound.size_lt
  have hTarget : seekTarget f offset whence = a.target offset whence := by
    simp only [seekTarget, ByteFile.target, h.pos, h.iSize, h.length_content] at hCur hEnd ⊢
    by_cases hWhence : whence = 1
    · rw [toLoff_of_range (by omega) (hCur hWhence)]
      simp [hWhence]
    · by_cases hWhence' : whence = 2
      · rw [toLoff_of_range (x := f.inode.size + offset) (by omega) (hEnd hWhence')]
        simp [hWhence']
      · simp [hWhence, hWhence']
  have hBound : ∀ p ∈ a.target offset whence, p < 2 ^ 63 := by
    simp only [ByteFile.target, ← h.pos, ← h.length_content, h.iSize] at hCur hEnd ⊢
    grind
  simp only [File.step, vfsLseek, hTarget]
  cases hEq : a.target offset whence with
  | none => exact ⟨a, .lseekFails offset whence (by simp [hEq]), h⟩
  | some p =>
    by_cases hNeg : p < 0
    · refine ⟨a, ?_, ?_⟩
      · simpa [hNeg] using ByteFile.Step.lseekFails offset whence (by simpa [hEq] using hNeg)
      · simpa [hNeg] using h
    · obtain ⟨n, rfl⟩ := Int.eq_ofNat_of_zero_le (by omega : 0 ≤ p)
      refine ⟨⟨a.content, n⟩, ?_, ?_⟩
      · simpa [hNeg] using ByteFile.Step.lseek offset whence n hEq
      · have hLt := hBound n hEq
        simp only [hNeg, if_false]
        exact ⟨h.sound, h.regular, h.content, rfl, by simp only; omega, h.iSize⟩

theorem ramfsGrow_some {inode inode' : RamfsInode} {newSize : Nat} {kmalloc : Nat → Option Mem}
    (hSound : inode.Sound) (hLt : newSize < 2 ^ 63)
    (h : ramfsGrow inode newSize kmalloc = some inode') :
    inode'.size = inode.size ∧ inode'.mode = inode.mode ∧ newSize ≤ inode'.dataCapacity ∧
      inode.size ≤ inode'.dataCapacity ∧ ∀ i < inode.size, inode'.byte i = inode.byte i := by
  have hFits := hSound.fits
  unfold ramfsGrow at h
  split at h
  · rename_i hSmall
    have hCap : newSize ≤ toSize (newSize + ramfsBlockSize - 1) / ramfsBlockSize * ramfsBlockSize := by
      simp only [ramfsBlockSize]
      rw [toSize_of_nonneg (by omega) (by omega)]
      omega
    simp only at h
    split at h
    · simp at h
    · rename_i newData hAlloc
      obtain rfl := Option.some.inj h
      refine ⟨rfl, rfl, hCap, by simp only; omega, ?_⟩
      intro i hi
      simp only [RamfsInode.byte, Option.getD_some, zeroBytes]
      rw [fill_outside (.inl hi)]
      cases hData : inode.data with
      | none =>
        have hZero := hSound.null hData
        omega
      | some data => simp [fill, hi]
  · rename_i hLarge
    obtain rfl := Option.some.inj h
    exact ⟨rfl, rfl, by omega, hFits, fun i _ => rfl⟩

theorem ramfsGrow_none {inode : RamfsInode} {newSize : Nat} {kmalloc : Nat → Option Mem}
    (hLt : newSize < 2 ^ 63) (h : ramfsGrow inode newSize kmalloc = none) :
    kmalloc (roundUp newSize) = none := by
  unfold ramfsGrow at h
  split at h
  · simp only at h
    split at h
    · rename_i hAlloc
      have hCap : toSize (newSize + ramfsBlockSize - 1) = newSize + ramfsBlockSize - 1 := by
        simp only [ramfsBlockSize]
        rw [toSize_of_nonneg (by omega) (by omega)]
        omega
      rw [hCap] at hAlloc
      rw [roundUp]
      exact hAlloc
    · simp at h
  · simp at h

theorem written_byte {data : Mem} {size p i : Nat} {buf : List UInt8}
    (hBelow : i < max size (p + buf.length)) :
    putBytes (if size < p then zeroBytes data size p else data) p buf i =
      if p ≤ i ∧ i < p + buf.length then buf.getD (i - p) 0
      else if i < size then data i else 0 := by
  rw [putBytes, fill]
  split
  · rfl
  · rename_i hOut
    by_cases hGap : size < p
    · rw [if_pos hGap, zeroBytes, fill]
      by_cases hOld : i < size
      · rw [if_neg (by omega), if_pos hOld]
      · rw [if_pos (by omega), if_neg hOld]
    · rw [if_neg hGap, if_pos (by omega)]

theorem vfsWrite_cases {f : File} {p : Nat} {buf : List UInt8} (kmalloc : Nat → Option Mem)
    (hSound : f.inode.Sound) (hRegular : sIsDir f.inode.mode = false) (hPos : f.fPos = p)
    (hRange : p + buf.length < 2 ^ 63) :
    ramfsGrow f.inode (p + buf.length) kmalloc = none ∧ vfsWrite f buf kmalloc = (f, -eNoMem) ∨
      ∃ inode : RamfsInode, inode.Sound ∧ inode.mode = f.inode.mode ∧
        inode.bytes = overwrite f.inode.bytes p buf ∧
        ramfsGrow f.inode (p + buf.length) kmalloc ≠ none ∧
        vfsWrite f buf kmalloc =
          ((⟨inode, inode.size, p + buf.length⟩ : File), (buf.length : Int)) := by
  have hNewSize : toSize (p + buf.length) = p + buf.length := by
    rw [toSize_of_nonneg (by omega) (by omega)]
    omega
  have hPosSize : toSize p = p := by
    rw [toSize_of_nonneg (by omega) (by omega)]
    omega
  simp only [vfsWrite, hRegular, ramfsWrite, hPos, hNewSize, Bool.false_eq_true, if_false]
  cases hGrow : ramfsGrow f.inode (p + buf.length) kmalloc with
  | none => exact Or.inl ⟨rfl, rfl⟩
  | some inode =>
    obtain ⟨hSize, hMode, hRoom, hFits, hBytes⟩ := ramfsGrow_some hSound (by omega) hGrow
    have hSizeLt := hSound.size_lt
    have hLoff : toLoff inode.size = inode.size := toLoff_of_range (by omega) (by omega)
    have hPos' : toLoff (p + buf.length) = (p + buf.length : Int) :=
      toLoff_of_range (by omega) (by omega)
    have hSize' : (if toLoff inode.size < toLoff (p + buf.length) then
        toSize (toLoff (p + buf.length)) else inode.size) = max f.inode.size (p + buf.length) := by
      rw [hLoff, hPos', hNewSize]
      split <;> omega
    simp only [hSize', hPosSize]
    rw [toLoff_of_range (x := buf.length) (by omega) (by omega), hPos',
      toLoff_of_range (by omega) (by omega)]
    refine Or.inr ⟨_, ⟨?_, ?_, ?_⟩, ?_, ?_, nofun, rfl⟩
    · simp only
      omega
    · simp only
      omega
    · simp
    · exact hMode
    · apply List.ext_getElem
      · simp [length_overwrite]
      · intro i hi hi'
        have hBelow : i < max f.inode.size (p + buf.length) := by simpa using hi
        have hSpec := getD_overwrite f.inode.bytes p buf i
        rw [List.getD_eq_getElem _ _ hi'] at hSpec
        rw [hSpec]
        simp only [RamfsInode.bytes, RamfsInode.byte, List.getElem_map, List.getElem_range,
          Option.getD_some]
        rw [hSize, written_byte hBelow]
        split
        · rfl
        · rename_i hOut
          split
          · rename_i hOld
            rw [← RamfsInode.bytes, RamfsInode.getD_bytes _ hOld, ← hBytes i hOld]
            rfl
          · rename_i hOld
            rw [List.getD_eq_default _ _ (by simp; omega)]

theorem write_step (h : Refines f a) {buf : List UInt8} {kmalloc : Nat → Option Mem}
    (hRange : f.InRange (.write buf kmalloc)) :
    ∃ b, a.Step (.write buf kmalloc) (f.step (.write buf kmalloc)).2 b ∧
      Refines (f.step (.write buf kmalloc)).1 b := by
  obtain ⟨-, hRange⟩ := hRange
  rw [h.pos] at hRange
  obtain ⟨hNone, hWrite⟩ | ⟨inode, hSound, hMode, hBytes, -, hWrite⟩ :=
    vfsWrite_cases kmalloc h.sound h.regular h.pos (by omega : a.pos + buf.length < 2 ^ 63)
  · rw [File.step, hWrite]
    exact ⟨a, .writeFails buf kmalloc (ramfsGrow_none (by omega) hNone), h⟩
  · rw [File.step, hWrite]
    refine ⟨⟨overwrite a.content a.pos buf, a.pos + buf.length⟩, .write buf kmalloc,
      ⟨hSound, ?_, ?_, rfl, by simp only; omega, rfl⟩⟩
    · rw [hMode]
      exact h.regular
    · rw [hBytes, h.content]

theorem File.step_refines (h : Refines f a) {op : FileOp} (hRange : f.InRange op) :
    ∃ b, a.Step op (f.step op).2 b ∧ Refines (f.step op).1 b := by
  cases op with
  | read count => exact read_step h hRange
  | write buf kmalloc => exact write_step h hRange
  | lseek offset whence => exact lseek_step h hRange

theorem File.run_refines {ops : List FileOp} (h : Refines f a) (hRange : f.InRangeAlong ops) :
    ∃ b, a.Run ops (f.run ops).2 b ∧ Refines (f.run ops).1 b := by
  induction ops generalizing f a with
  | nil => exact ⟨a, .nil a, h⟩
  | cons op ops ih =>
    obtain ⟨hOp, hOps⟩ := hRange
    obtain ⟨b, hStep, hNext⟩ := File.step_refines h hOp
    obtain ⟨c, hRun, hEnd⟩ := ih hNext hOps
    exact ⟨c, .cons hStep hRun, hEnd⟩

end Steps

section Open

theorem not_sIsDir_of_sIsReg {mode : UInt32} (h : sIsReg mode = true) : sIsDir mode = false := by
  simp only [sIsReg, sIsDir, beq_iff_eq] at h ⊢
  rw [h]
  decide

def openedFile (inode : RamfsInode) (flags : UInt32) : ByteFile :=
  let content := if flags &&& oTrunc ≠ 0 then [] else inode.bytes
  ⟨content, if flags &&& oAppend ≠ 0 then content.length else 0⟩

theorem vfsOpenInode_refines {inode : RamfsInode} (hReg : sIsReg inode.mode = true)
    (hSound : inode.Sound) (flags : UInt32) :
    Refines (vfsOpenInode inode flags) (openedFile inode flags) := by
  have hDir := not_sIsDir_of_sIsReg hReg
  have hSize := hSound.size_lt
  have hLoff : toLoff inode.size = inode.size := toLoff_of_range (by omega) (by omega)
  have hEmpty : RamfsInode.Sound { inode with size := 0 } :=
    ⟨by simp, Nat.zero_le _, hSound.null⟩
  by_cases hTrunc : flags &&& oTrunc = 0
  · by_cases hAppend : flags &&& oAppend = 0
    · simp only [vfsOpenInode, openedFile, hTrunc, hAppend, ne_eq, not_true, false_and, if_false, hLoff]
      exact ⟨hSound, hDir, rfl, rfl, by simp, rfl⟩
    · simp only [vfsOpenInode, openedFile, hTrunc, hAppend, hReg, ne_eq, not_true, false_and, if_false,
        not_false_iff, and_self, if_true, hLoff, RamfsInode.length_bytes]
      exact ⟨hSound, hDir, rfl, rfl, hSize, rfl⟩
  · by_cases hAppend : flags &&& oAppend = 0
    · simp only [vfsOpenInode, openedFile, hTrunc, hAppend, hReg, ne_eq, not_true, false_and, if_false,
        not_false_iff, and_self, if_true, ramfsTruncateFile, hDir, Bool.false_eq_true]
      exact ⟨hEmpty, hDir, rfl, rfl, by simp, rfl⟩
    · simp only [vfsOpenInode, openedFile, hTrunc, hAppend, hReg, ne_eq, not_false_iff, and_self, if_true,
        ramfsTruncateFile, hDir, Bool.false_eq_true, if_false]
      exact ⟨hEmpty, hDir, rfl, rfl, by simp, rfl⟩

/-- Every run over one handle answers as the byte list does and leaves the file it stands for. -/
theorem ramfs_file_is_byte_list (inode : RamfsInode) (flags : UInt32) (ops : List FileOp)
    (hReg : sIsReg inode.mode = true) (hSound : inode.Sound)
    (hRange : (vfsOpenInode inode flags).InRangeAlong ops) :
    ∃ b, (openedFile inode flags).Run ops ((vfsOpenInode inode flags).run ops).2 b ∧
      Refines ((vfsOpenInode inode flags).run ops).1 b :=
  File.run_refines (vfsOpenInode_refines hReg hSound flags) hRange

def sevens : RamfsInode where
  ino := 2
  mode := 0o100644
  size := 3
  data := some fun _ => 7
  dataCapacity := 4
  parent := some 1
  children := none
  sibling := none
  name := ['f']

theorem ramfs_file_is_byte_list_truncated :
    ∃ b, (openedFile sevens oTrunc).Run
        [.lseek 2 0, .write [9] fun _ => none, .lseek 0 0, .read 8]
        [⟨2, []⟩, ⟨1, []⟩, ⟨0, []⟩, ⟨3, [0, 0, 9]⟩] b := by
  obtain ⟨b, hRun, -⟩ := ramfs_file_is_byte_list sevens oTrunc
    [.lseek 2 0, .write [9] fun _ => none, .lseek 0 0, .read 8] (by decide)
    ⟨by simp [sevens], by decide, by simp [sevens]⟩
    ⟨by decide +kernel, by decide +kernel, by decide +kernel, by decide +kernel, trivial⟩
  have hReplies : ((vfsOpenInode sevens oTrunc).run
      [.lseek 2 0, .write [9] fun _ => none, .lseek 0 0, .read 8]).2 =
      [⟨2, []⟩, ⟨1, []⟩, ⟨0, []⟩, ⟨3, [0, 0, 9]⟩] := by
    decide +kernel
  rw [hReplies] at hRun
  exact ⟨b, hRun⟩

end Open

end UnixOS.Fs
