import UnixOS.Fs.RamfsFile
import Mathlib.Data.List.Forall2

/-! # Several handles on one RAM file

Handles share the `ramfs_inode`, but each has a VFS inode of its own, whose `i_size` is brought up to
date by the opening and by the handle's own writes only. `O_APPEND` places the handle at the end
when it is opened; `vfs_write` does not look at it again.
-/

namespace UnixOS.Fs

open ByteMemory

structure Handle where
  iSize : Int
  fPos : Int
  append : Bool

structure SharedFile where
  inode : RamfsInode
  handles : List Handle

inductive HandleOp where
  | openFile (flags : UInt32)
  | call (h : Nat) (op : FileOp)

namespace SharedFile

def file (s : SharedFile) (hd : Handle) : File := ⟨s.inode, hd.iSize, hd.fPos⟩

def openFile (s : SharedFile) (flags : UInt32) : SharedFile :=
  let f := vfsOpenInode s.inode flags
  ⟨f.inode, s.handles ++ [⟨f.iSize, f.fPos, flags &&& oAppend ≠ 0⟩]⟩

def call (s : SharedFile) (h : Nat) (op : FileOp) : SharedFile × Option Reply :=
  match s.handles[h]? with
  | none => (s, none)
  | some hd =>
    let (f, reply) := (s.file hd).step op
    (⟨f.inode, s.handles.set h ⟨f.iSize, f.fPos, hd.append⟩⟩, some reply)

def step (s : SharedFile) : HandleOp → SharedFile
  | .openFile flags => s.openFile flags
  | .call h op => (s.call h op).1

/-- The file's length right after each handle's opening or latest successful write. -/
def seen (s : SharedFile) (old : List Nat) : HandleOp → List Nat
  | .openFile flags => old ++ [(s.openFile flags).inode.size]
  | .call h (.write buf kmalloc) =>
    if (s.call h (.write buf kmalloc)).2.any fun r => 0 ≤ r.ret then
      old.set h (s.call h (.write buf kmalloc)).1.inode.size
    else old
  | .call _ _ => old

/-- A write through an `O_APPEND` handle adds its bytes behind the last one, and `SEEK_END` starts
from the length the file has. -/
def Lawful (s : SharedFile) : HandleOp → Prop
  | .call h (.write buf kmalloc) => ∀ hd ∈ s.handles[h]?, hd.append = true →
    ((s.file hd).step (.write buf kmalloc)).1.inode.bytes = s.inode.bytes ++ buf ∨
      ((s.file hd).step (.write buf kmalloc)).2.ret < 0 ∧
        ((s.file hd).step (.write buf kmalloc)).1.inode.bytes = s.inode.bytes
  | .call h (.lseek offset whence) => whence = 2 → ∀ hd ∈ s.handles[h]?,
    if s.inode.size + offset < 0 then
      ((s.file hd).step (.lseek offset whence)).2.ret = -eInval ∧
        ((s.file hd).step (.lseek offset whence)).1.fPos = hd.fPos
    else
      ((s.file hd).step (.lseek offset whence)).2.ret = s.inode.size + offset ∧
        ((s.file hd).step (.lseek offset whence)).1.fPos = s.inode.size + offset
  | _ => True

/-- The write needs a larger buffer and gets no memory for it. -/
def Refused (s : SharedFile) (newSize : Nat) (kmalloc : Nat → Option Mem) : Prop :=
  s.inode.dataCapacity < newSize ∧ kmalloc (roundUp newSize) = none

/-- The handle of an appending write stands at the file's end, and that of a `SEEK_END` has seen the
length the file has. -/
def UpToDate (s : SharedFile) (old : List Nat) : HandleOp → Prop
  | .call h (.write buf kmalloc) => ∀ hd ∈ s.handles[h]?, hd.append = true →
    hd.fPos = s.inode.size ∨ buf = [] ∧ hd.fPos ≤ s.inode.size ∨
      s.Refused (hd.fPos + buf.length).toNat kmalloc
  | .call h (.lseek offset whence) => whence = 2 → ∀ n ∈ old[h]?,
    n = s.inode.size ∨ n + offset < 0 ∧ s.inode.size + offset < 0
  | _ => True

def InRange (s : SharedFile) : HandleOp → Prop
  | .openFile _ => True
  | .call h (.write buf _) => ∀ hd ∈ s.handles[h]?, hd.fPos + buf.length < 2 ^ 63
  | .call h op => ∀ hd ∈ s.handles[h]?, (s.file hd).InRange op

def LawfulAlong : SharedFile → List HandleOp → Prop
  | _, [] => True
  | s, e :: es => s.Lawful e ∧ (s.step e).LawfulAlong es

def UpToDateAlong : SharedFile → List Nat → List HandleOp → Prop
  | _, _, [] => True
  | s, old, e :: es => s.UpToDate old e ∧ (s.step e).UpToDateAlong (s.seen old e) es

def InRangeAlong : SharedFile → List HandleOp → Prop
  | _, [] => True
  | s, e :: es => s.InRange e ∧ (s.step e).InRangeAlong es

/-! ### The handles along a run -/

structure Saw (hd : Handle) (n : Nat) : Prop where
  iSize : hd.iSize = n
  pos : ∃ p : Nat, hd.fPos = p ∧ p < 2 ^ 63

structure Inv (s : SharedFile) (old : List Nat) : Prop where
  sound : s.inode.Sound
  regular : sIsReg s.inode.mode = true
  handles : List.Forall₂ Saw s.handles old

theorem forall₂_set {α β : Type} {R : α → β → Prop} {xs : List α} {ys : List β}
    (h : List.Forall₂ R xs ys) {x : α} {y : β} (hxy : R x y) (n : Nat) :
    List.Forall₂ R (xs.set n x) (ys.set n y) := by
  induction h generalizing n with
  | nil => exact .nil
  | cons hHead hTail ih =>
    cases n with
    | zero => exact .cons hxy hTail
    | succ n => exact .cons hHead (ih n)

variable {s : SharedFile} {old : List Nat}

theorem Inv.lookup (h : s.Inv old) {i : Nat} {hd : Handle} (hHandle : s.handles[i]? = some hd) :
    ∃ n, old[i]? = some n ∧ Saw hd n := by
  obtain ⟨hi, rfl⟩ := List.getElem?_eq_some_iff.mp hHandle
  have hi' : i < old.length := h.handles.length_eq ▸ hi
  exact ⟨old[i], List.getElem?_eq_getElem hi', h.handles.get hi hi'⟩

theorem Inv.openFile (h : s.Inv old) (flags : UInt32) :
    (s.openFile flags).Inv (s.seen old (.openFile flags)) := by
  have hRefines := vfsOpenInode_refines h.regular h.sound flags
  have hMode : (vfsOpenInode s.inode flags).inode.mode = s.inode.mode := by
    have hTrunc : (ramfsTruncateFile s.inode).1.mode = s.inode.mode := by
      unfold ramfsTruncateFile
      split <;> rfl
    unfold vfsOpenInode
    split <;> split <;> first | rfl | exact hTrunc
  refine ⟨hRefines.sound, ?_, ?_⟩
  · rw [SharedFile.openFile, hMode]
    exact h.regular
  · refine List.rel_append h.handles (.cons ⟨hRefines.iSize, ?_⟩ .nil)
    exact ⟨_, hRefines.pos, hRefines.pos_lt⟩

theorem Inv.file_refines (h : s.Inv old) {p : Nat} (hp : p < 2 ^ 63) :
    Refines ⟨s.inode, s.inode.size, p⟩ ⟨s.inode.bytes, p⟩ :=
  ⟨h.sound, not_sIsDir_of_sIsReg h.regular, rfl, rfl, hp, rfl⟩

theorem Inv.move (h : s.Inv old) {i n p : Nat} {hd : Handle} (hOld : old[i]? = some n)
    (hSize : hd.iSize = n) (hPos : hd.fPos = p) (hp : p < 2 ^ 63) :
    Inv ⟨s.inode, s.handles.set i hd⟩ old := by
  obtain ⟨hi, rfl⟩ := List.getElem?_eq_some_iff.mp hOld
  have hSet := forall₂_set h.handles ⟨hSize, p, hPos, hp⟩ i
  rw [List.set_getElem_self] at hSet
  exact ⟨h.sound, h.regular, hSet⟩

theorem lseek_cases (f : File) (offset whence : Int) :
    (f.step (.lseek offset whence)).1 = f ∨
      ∃ p, seekTarget f offset whence = some p ∧ 0 ≤ p ∧
        (f.step (.lseek offset whence)).1 = { f with fPos := p } := by
  simp only [File.step, vfsLseek]
  cases seekTarget f offset whence with
  | none => exact Or.inl rfl
  | some p =>
    dsimp only
    split
    case isTrue hNeg => exact Or.inl rfl
    case isFalse hPos => exact Or.inr ⟨p, rfl, by omega, rfl⟩

theorem seekTarget_lt {f : File} {offset whence p : Int} (hRange : f.InRange (.lseek offset whence))
    (hSize : 0 ≤ f.iSize) (hPos : 0 ≤ f.fPos) (h : seekTarget f offset whence = some p) :
    p < 2 ^ 63 := by
  obtain ⟨hLow, hHigh, hCur, hEnd⟩ := hRange
  unfold seekTarget at h
  split at h
  case isTrue hSet =>
    cases h
    exact hHigh
  case isFalse hOther =>
    split at h
    case isTrue hWhence =>
      rw [toLoff_of_range (by omega) (hCur hWhence)] at h
      cases h
      exact hCur hWhence
    case isFalse hOther' =>
      split at h
      case isTrue hWhence =>
        rw [toLoff_of_range (by omega) (hEnd hWhence)] at h
        cases h
        exact hEnd hWhence
      case isFalse hOther'' => cases h

theorem Inv.call (h : s.Inv old) {i : Nat} {op : FileOp} (hRange : s.InRange (.call i op)) :
    (s.call i op).1.Inv (s.seen old (.call i op)) := by
  cases hHandle : s.handles[i]? with
  | none =>
    cases op <;> simp only [SharedFile.call, seen, hHandle, Option.any_none] <;> exact h
  | some hd =>
    obtain ⟨n, hOld, hSize, p, hPos, hp⟩ := h.lookup hHandle
    cases op with
    | read count =>
      have hCount : (p : Int) + count < 2 ^ 63 := hPos ▸ hRange hd hHandle
      have hRead := ramfsRead_refines (h.file_refines hp) hCount
      have hLe : (ByteFile.chunk ⟨s.inode.bytes, p⟩ count).length ≤ count := List.length_take_le ..
      simp only [SharedFile.call, seen, hHandle, file, File.step, vfsRead,
        not_sIsDir_of_sIsReg h.regular, hPos, hRead, Bool.false_eq_true, if_false]
      exact h.move hOld hSize (Int.natCast_add _ _).symm (by omega)
    | lseek offset whence =>
      have hSeek := hRange hd hHandle
      simp only [SharedFile.call, seen, hHandle]
      obtain hSame | ⟨q, hTarget, hNonneg, hMoved⟩ := lseek_cases (s.file hd) offset whence
      · rw [hSame]
        exact h.move hOld hSize hPos hp
      · have hSizeNonneg : 0 ≤ hd.iSize := hSize ▸ Int.natCast_nonneg n
        have hPosNonneg : 0 ≤ hd.fPos := hPos ▸ Int.natCast_nonneg p
        have hLt := seekTarget_lt hSeek hSizeNonneg hPosNonneg hTarget
        rw [hMoved]
        obtain ⟨q, rfl⟩ := Int.eq_ofNat_of_zero_le hNonneg
        exact h.move hOld hSize rfl (by omega)
    | write buf kmalloc =>
      have hEnd : (p : Int) + buf.length < 2 ^ 63 := hPos ▸ hRange hd hHandle
      have hCases := vfsWrite_cases (f := s.file hd) kmalloc h.sound
        (not_sIsDir_of_sIsReg h.regular) hPos (by omega : p + buf.length < 2 ^ 63)
      obtain ⟨-, hWrite⟩ | ⟨inode, hSound, hMode, -, -, hWrite⟩ := hCases
      · simp only [SharedFile.call, seen, hHandle, File.step, hWrite, Option.any_some]
        exact h.move hOld hSize hPos hp
      · simp only [SharedFile.call, seen, hHandle, File.step, hWrite, Option.any_some,
          Int.natCast_nonneg, decide_true, if_true]
        refine ⟨hSound, ?_, forall₂_set h.handles ⟨rfl, p + buf.length, rfl, by omega⟩ i⟩
        rw [hMode]
        exact h.regular

theorem Inv.step (h : s.Inv old) {e : HandleOp} (hRange : s.InRange e) :
    (s.step e).Inv (s.seen old e) := by
  cases e with
  | openFile flags => exact h.openFile flags
  | call i op => exact h.call hRange

/-! ### Appending -/

theorem overwrite_eq_append_iff (content : List UInt8) (p : Nat) (buf : List UInt8) :
    overwrite content p buf = content ++ buf ↔
      p = content.length ∨ buf = [] ∧ p ≤ content.length := by
  constructor
  · intro hSame
    have hLength := congrArg List.length hSame
    rw [length_overwrite, List.length_append] at hLength
    cases buf with
    | nil =>
      rw [List.length_nil] at hLength
      exact Or.inr ⟨rfl, by omega⟩
    | cons b rest =>
      rw [List.length_cons] at hLength
      exact Or.inl (by omega)
  · rintro (rfl | ⟨rfl, hInside⟩)
    · rw [overwrite, Nat.sub_self, List.replicate_zero, List.append_nil, List.take_length,
        List.drop_eq_nil_of_le (by omega), List.append_nil]
    · rw [overwrite, Nat.sub_eq_zero_of_le hInside, List.replicate_zero, List.append_nil,
        List.append_nil, List.length_nil, Nat.add_zero]
      exact List.take_append_drop p content

theorem ramfsGrow_eq_none_iff {newSize : Nat} {kmalloc : Nat → Option Mem}
    (hLt : newSize < 2 ^ 63) :
    ramfsGrow s.inode newSize kmalloc = none ↔ s.Refused newSize kmalloc := by
  constructor
  · intro hNone
    refine ⟨?_, ramfsGrow_none hLt hNone⟩
    unfold ramfsGrow at hNone
    split at hNone
    case isTrue hSmall => exact hSmall
    case isFalse hLarge => cases hNone
  · rintro ⟨hSmall, hNone⟩
    have hCap : toSize (newSize + ramfsBlockSize - 1) = newSize + ramfsBlockSize - 1 := by
      simp only [ramfsBlockSize]
      rw [toSize_of_nonneg (by omega) (by omega)]
      omega
    rw [roundUp] at hNone
    simp only [ramfsGrow, if_pos hSmall, hCap, hNone]

theorem write_lawful_iff (h : s.Inv old) {i : Nat} {buf : List UInt8} {kmalloc : Nat → Option Mem}
    (hRange : s.InRange (.call i (.write buf kmalloc))) :
    s.Lawful (.call i (.write buf kmalloc)) ↔ s.UpToDate old (.call i (.write buf kmalloc)) := by
  unfold Lawful UpToDate
  refine forall_congr' fun hd => forall_congr' fun hHandle => forall_congr' fun _ => ?_
  obtain ⟨n, -, -, p, hPos, hp⟩ := h.lookup hHandle
  have hEnd : (p : Int) + buf.length < 2 ^ 63 := hPos ▸ hRange hd hHandle
  have hNew : (hd.fPos + buf.length).toNat = p + buf.length := by omega
  rw [hNew, ← ramfsGrow_eq_none_iff (by omega)]
  obtain ⟨hNone, hWrite⟩ | ⟨inode, -, -, hBytes, hSome, hWrite⟩ :=
    vfsWrite_cases (f := s.file hd) kmalloc h.sound (not_sIsDir_of_sIsReg h.regular) hPos
      (by omega : p + buf.length < 2 ^ 63)
  · simp only [File.step, hWrite]
    exact ⟨fun _ => Or.inr (Or.inr hNone), fun _ => Or.inr ⟨by decide, rfl⟩⟩
  · have hContent := overwrite_eq_append_iff s.inode.bytes p buf
    rw [RamfsInode.length_bytes] at hContent
    have hNonneg : ¬ (buf.length : Int) < 0 := by omega
    simp only [File.step, hWrite, hBytes, hNonneg, false_and, or_false]
    simp only [file, hPos]
    rw [hContent]
    constructor
    · rintro (hAt | ⟨hNil, hInside⟩)
      · exact Or.inl (by omega)
      · exact Or.inr (Or.inl ⟨hNil, by omega⟩)
    · rintro (hAt | ⟨hNil, hInside⟩ | hNone)
      · exact Or.inl (by omega)
      · exact Or.inr ⟨hNil, by omega⟩
      · exact absurd hNone hSome

theorem lseek_lawful_iff (h : s.Inv old) {i : Nat} {offset whence : Int}
    (hRange : s.InRange (.call i (.lseek offset whence))) :
    s.Lawful (.call i (.lseek offset whence)) ↔ s.UpToDate old (.call i (.lseek offset whence)) := by
  unfold Lawful UpToDate
  refine forall_congr' fun hWhence => ?_
  cases hHandle : s.handles[i]? with
  | none =>
    have hShort : old[i]? = none := by
      rw [List.getElem?_eq_none_iff, ← h.handles.length_eq]
      exact List.getElem?_eq_none_iff.mp hHandle
    rw [hShort]
    exact ⟨fun _ => nofun, fun _ => nofun⟩
  | some hd =>
    obtain ⟨n, hOld, hSize, p, hPos, hp⟩ := h.lookup hHandle
    obtain ⟨hLow, -, -, hEnd⟩ := hRange hd hHandle
    have hEnd : (n : Int) + offset < 2 ^ 63 := hSize ▸ hEnd hWhence
    have hTarget : seekTarget (s.file hd) offset whence = some (n + offset) := by
      simp only [seekTarget, hWhence, file, hSize]
      rw [toLoff_of_range (by omega) hEnd]
      rfl
    simp only [hOld, Option.mem_def, Option.some.injEq, forall_eq', File.step, vfsLseek, hTarget]
    split
    case isTrue hOut =>
      split
      case isTrue hNeg => exact ⟨fun _ => Or.inr ⟨hNeg, hOut⟩, fun _ => ⟨rfl, rfl⟩⟩
      case isFalse hIn =>
        dsimp only [eInval]
        omega
    case isFalse hBehind =>
      split
      case isTrue hNeg =>
        dsimp only [eInval]
        omega
      case isFalse hIn =>
        dsimp only
        constructor
        · rintro ⟨hRet, -⟩
          exact Or.inl (by omega)
        · rintro (rfl | ⟨hNeg, -⟩)
          · exact ⟨rfl, rfl⟩
          · exact absurd hNeg hIn

theorem lawful_iff (h : s.Inv old) {e : HandleOp} (hRange : s.InRange e) :
    s.Lawful e ↔ s.UpToDate old e := by
  cases e with
  | openFile flags => exact Iff.rfl
  | call i op =>
    cases op with
    | read count => exact Iff.rfl
    | write buf kmalloc => exact write_lawful_iff h hRange
    | lseek offset whence => exact lseek_lawful_iff h hRange

theorem lawfulAlong_iff {es : List HandleOp} (h : s.Inv old) (hRange : s.InRangeAlong es) :
    s.LawfulAlong es ↔ s.UpToDateAlong old es := by
  induction es generalizing s old with
  | nil => exact Iff.rfl
  | cons e es ih => exact and_congr (lawful_iff h hRange.1) (ih (h.step hRange.1) hRange.2)

end SharedFile

/-- In a run over any number of handles, every appending write adds at the end and every `SEEK_END`
starts from the file's length exactly when each appending handle stands at the end as it writes and
each handle that seeks has seen the length the file has. -/
theorem ramfs_append_law_iff (inode : RamfsInode) (hReg : sIsReg inode.mode = true)
    (hSound : inode.Sound) (es : List HandleOp) (hRange : SharedFile.InRangeAlong ⟨inode, []⟩ es) :
    SharedFile.LawfulAlong ⟨inode, []⟩ es ↔ SharedFile.UpToDateAlong ⟨inode, []⟩ [] es :=
  SharedFile.lawfulAlong_iff ⟨hSound, hReg, .nil⟩ hRange

def emptyFile : RamfsInode where
  ino := 2
  mode := 0o100644
  size := 0
  data := none
  dataCapacity := 0
  parent := some 1
  children := none
  sibling := none
  name := ['f']

def anyBlock : Nat → Option Mem := fun _ => some fun _ => 0

/-- Two handles are opened for appending while the file is empty; the second to write puts its byte
over the first one's. -/
theorem second_append_overwrites :
    SharedFile.InRangeAlong ⟨emptyFile, []⟩
        [.openFile oAppend, .openFile oAppend, .call 0 (.write [65] anyBlock),
          .call 1 (.write [66] anyBlock)] ∧
      ¬ SharedFile.LawfulAlong ⟨emptyFile, []⟩
        [.openFile oAppend, .openFile oAppend, .call 0 (.write [65] anyBlock),
          .call 1 (.write [66] anyBlock)] := by
  simp only [SharedFile.InRangeAlong, SharedFile.LawfulAlong, SharedFile.InRange, SharedFile.Lawful]
  decide +kernel

theorem ramfs_append_law_iff_in_turn :
    SharedFile.LawfulAlong ⟨emptyFile, []⟩
      [.openFile oAppend, .call 0 (.write [65] anyBlock), .openFile oAppend,
        .call 1 (.write [66] anyBlock), .call 1 (.lseek (-1) 2)] := by
  refine (ramfs_append_law_iff emptyFile (by decide) ⟨by decide, by decide, fun _ => rfl⟩ _ ?_).mpr ?_
  · simp only [SharedFile.InRangeAlong, SharedFile.InRange]
    decide +kernel
  · simp only [SharedFile.UpToDateAlong, SharedFile.UpToDate, SharedFile.Refused]
    decide +kernel

end UnixOS.Fs
