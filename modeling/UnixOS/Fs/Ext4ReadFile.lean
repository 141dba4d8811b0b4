import UnixOS.Fs.Ext4Content

/-! # Reading a file

`ext4_read_file` of `kernel/fs/ext4.c`. With every request granted the call returns the bytes up to the end of
the file or up to the first hole, whichever comes first.
-/

namespace UnixOS.Fs.Ext4

open ByteMemory Fallible

/-- The loop of `ext4_read_file`, with the bytes copied so far: each round copies at least one byte, so as many
rounds as there are bytes are enough. -/
def readLoop (inode : Mem) (offset len : Nat) : Nat → List UInt8 → Ext4M (List UInt8)
  | 0, bytes => pure bytes
  | fuel + 1, bytes =>
    if bytes.length < len then do
      let st ← Run.get
      let pos := (offset + bytes.length) % 2 ^ 64
      let diskBlock ← ext4GetFileBlock inode (pos / st.fs.blockSize)
      if diskBlock = 0 then pure bytes
      else
        match ← (ext4ReadBlock diskBlock).attempt with
        | none => pure bytes
        | some buf =>
          let toCopy := min (st.fs.blockSize - pos % st.fs.blockSize) (len - bytes.length)
          readLoop inode offset len fuel
            (bytes ++ (List.range toCopy).map fun i => buf (pos % st.fs.blockSize + i))
    else pure bytes

/-- Returns the bytes put into the caller's buffer; their number is what the source returns. -/
def ext4ReadFile (ino offset len : Nat) : Ext4M (List UInt8) := do
  let inode ← ext4ReadInode ino
  if offset ≥ iSizeLo inode then pure []
  else do
    let len := if (offset + len) % 2 ^ 64 > iSizeLo inode then iSizeLo inode - offset else len
    kmalloc
    readLoop inode offset len len []

/-! ### When every request is granted -/

structure Granted (Q : Assertion) (st : Volume) : Prop where
  mem : ∀ n, st.mem n = true
  zeros : ∀ n, st.zeros n = true
  io : ∀ n, st.io n = true
  holds : Q st.fs st.disk

section Rules

variable {α : Type} {Q Q' : Assertion} {R : α → Volume → Prop} {E : Volume → Prop}

theorem Granted.imp {st : Volume} (h : Granted Q st) (hImp : Q st.fs st.disk → Q' st.fs st.disk) : Granted Q' st :=
  ⟨h.mem, h.zeros, h.io, hImp h.holds⟩

theorem kmalloc_granted : Triple (Granted Q) kmalloc (fun _ => Granted Q) E := by
  intro st h
  simp only [kmalloc, h.mem 0, if_true]
  exact ⟨fun n => h.mem (n + 1), h.zeros, h.io, h.holds⟩

theorem kmallocZeros_granted : Triple (Granted Q) kmallocZeros (fun _ => Granted Q) E := by
  intro st h
  simp only [kmallocZeros, h.zeros 0, if_true]
  exact ⟨h.mem, fun n => h.zeros (n + 1), h.io, h.holds⟩

theorem ext4ReadBlock_granted (b : Nat) : Triple (Granted Q) (ext4ReadBlock b)
    (fun buf => Granted fun fs disk => Q fs disk ∧ buf = disk b) E := by
  intro st h
  simp only [ext4ReadBlock, h.io 0, if_true]
  exact ⟨h.mem, h.zeros, fun n => h.io (n + 1), h.holds, rfl⟩

theorem ext4WriteBlockRaw_granted {b : Nat} {buf : Mem}
    (h : ∀ fs disk, Q fs disk → Q' fs (Function.update disk b buf)) :
    Triple (Granted Q) (ext4WriteBlockRaw b buf) (fun _ => Granted Q') E := by
  intro st hst
  simp only [ext4WriteBlockRaw, hst.io 0, if_true]
  exact ⟨hst.mem, hst.zeros, fun n => hst.io (n + 1), h _ _ hst.holds⟩

theorem get_granted {f : Volume → Ext4M α}
    (h : ∀ st, Q st.fs st.disk →
      Triple (Granted fun fs disk => Q fs disk ∧ fs = st.fs ∧ disk = st.disk) (f st) R E) :
    Triple (Granted Q) (Run.get >>= f) R E := by
  apply Triple.get_bind
  rintro st hst s rfl
  exact h s hst.holds s (hst.imp fun hQ => ⟨hQ, rfl, rfl⟩)

theorem Triple.granted_weaken {m : Ext4M α} {P : Assertion}
    (h : Triple (Granted Q) m R E) (hImp : ∀ fs disk, P fs disk → Q fs disk) :
    Triple (Granted P) m R E :=
  h.conseq (fun _ hst => hst.imp (hImp _ _)) (fun _ _ => id) fun _ => id

theorem Triple.granted_and {p : Prop} {m : Ext4M α} (h : p → Triple (Granted Q) m R E) :
    Triple (Granted fun fs disk => p ∧ Q fs disk) m R E :=
  fun st hst => h hst.holds.1 st (hst.imp And.right)

end Rules

section Mapping

variable {Q : Assertion} {E : Volume → Prop}

theorem readPointer_granted (b j : Nat) :
    Triple (Granted Q) (readPointer b j)
      (fun d => Granted fun fs disk => Q fs disk ∧ d = pointer disk b j) E := by
  unfold readPointer
  refine Triple.attempt_bind_total (Triple.bind kmalloc_granted fun _ => ext4ReadBlock_granted b) fun buf => ?_
  refine Triple.pure fun _ hst => hst.imp ?_
  rintro ⟨hQ, rfl⟩
  exact ⟨hQ, rfl⟩

theorem ext4GetFileBlock_granted (inode : Mem) (fileBlock : Nat) :
    Triple (Granted Q) (ext4GetFileBlock inode fileBlock)
      (fun d => Granted fun fs disk => Q fs disk ∧ d = mappedBlock fs.ptrsPerBlock disk inode fileBlock) E := by
  unfold ext4GetFileBlock
  refine get_granted fun st _ => ?_
  dsimp only
  split
  case isTrue hDirect =>
    refine Triple.pure fun _ hst => hst.imp ?_
    rintro ⟨hQ, -, -⟩
    refine ⟨hQ, ?_⟩
    simp only [mappedBlock, mapPath, hDirect, if_true, follow]
  case isFalse hFar =>
    split
    case isTrue hInd =>
      split
      case isTrue hNone =>
        refine Triple.pure fun _ hst => hst.imp ?_
        rintro ⟨hQ, hfs, -⟩
        refine ⟨hQ, ?_⟩
        simp only [mappedBlock, mapPath, hFar, hfs, hInd, if_true, if_false, hNone, follow_zero]
      case isFalse hSome =>
        refine (readPointer_granted _ _).conseq (fun _ => id) ?_ fun _ => id
        refine fun d s hst => hst.imp ?_
        rintro ⟨⟨hQ, hfs, -⟩, rfl⟩
        refine ⟨hQ, ?_⟩
        simp only [mappedBlock, mapPath, hFar, hfs, hInd, if_true, if_false, hSome, follow]
    case isFalse hNotInd =>
      split
      case isFalse hBeyond =>
        refine Triple.pure fun _ hst => hst.imp ?_
        rintro ⟨hQ, hfs, -⟩
        refine ⟨hQ, ?_⟩
        simp only [mappedBlock, mapPath, hFar, hfs, hNotInd, hBeyond, if_false]
      case isTrue hDind =>
        split
        case isTrue hNone =>
          refine Triple.pure fun _ hst => hst.imp ?_
          rintro ⟨hQ, hfs, -⟩
          refine ⟨hQ, ?_⟩
          simp only [mappedBlock, mapPath, hFar, hfs, hNotInd, hDind, if_true, if_false, hNone, follow_zero]
        case isFalse hSome =>
          refine Triple.bind (readPointer_granted _ _) fun ind => ?_
          split
          case isTrue hHole =>
            refine Triple.pure fun _ hst => hst.imp ?_
            rintro ⟨⟨hQ, hfs, -⟩, hInd⟩
            refine ⟨hQ, ?_⟩
            simp only [mappedBlock, mapPath, hFar, hfs, hNotInd, hDind, if_true, if_false, hSome, follow, ← hInd, hHole]
          case isFalse hNext =>
            refine (readPointer_granted _ _).conseq (fun _ => id) ?_ fun _ => id
            refine fun d s hst => hst.imp ?_
            rintro ⟨⟨⟨hQ, hfs, -⟩, hInd⟩, rfl⟩
            refine ⟨hQ, ?_⟩
            simp only [mappedBlock, mapPath, hFar, hfs, hNotInd, hDind, if_true, if_false, hSome, follow, ← hInd, hNext]

theorem ext4ReadInode_granted {geo : Geometry} {ino : Nat} (hIno : geo.HasInode ino)
    (hGeo : ∀ fs disk, Q fs disk → fs.geometry = geo) :
    Triple (Granted Q) (ext4ReadInode ino)
      (fun inode => Granted fun fs disk => Q fs disk ∧ inode = fs.inodeOn disk ino) E := by
  unfold ext4ReadInode
  refine get_granted fun st hst => ?_
  obtain rfl := hGeo _ _ hst
  rw [if_neg hIno.1, if_neg (show ¬ st.fs.inodeGroup ino ≥ st.fs.groupCount from Nat.not_le.mpr hIno.2)]
  refine Triple.bind kmalloc_granted fun _ => Triple.bind (ext4ReadBlock_granted _) fun buf => ?_
  refine Triple.pure fun s hs => hs.imp ?_
  rintro ⟨⟨hQ, hfs, -⟩, rfl⟩
  rw [← hfs]
  exact ⟨hQ, rfl⟩

end Mapping

/-! ### The bytes of a file -/

section Bytes

variable (blockSize : Nat) (content : Nat → Option Mem)

def Mapped (p : Nat) : Prop := (content (p / blockSize)).isSome

instance : DecidablePred (Mapped blockSize content) := fun _ => inferInstanceAs (Decidable (_ = true))

def fileByte (p : Nat) : UInt8 := ((content (p / blockSize)).getD zeroBlock) (p % blockSize)

/-- What a read of `n` bytes from `offset` on returns: it ends at the first hole. -/
def readable (offset n : Nat) : List UInt8 :=
  (((List.range n).map (offset + ·)).takeWhile (Mapped blockSize content ·)).map (fileByte blockSize content)

variable {blockSize content} {offset k n : Nat}

theorem readable_add (h : ∀ i < k, Mapped blockSize content (offset + i)) :
    readable blockSize content offset (k + n) =
      (List.range k).map (fun i => fileByte blockSize content (offset + i)) ++
        readable blockSize content (offset + k) n := by
  have hRange : (List.range (k + n)).map (offset + ·) =
      (List.range k).map (offset + ·) ++ (List.range n).map (offset + k + ·) := by
    rw [List.range_add, List.map_append, List.map_map]
    simp [Function.comp_def, Nat.add_assoc]
  have hMapped : ∀ p ∈ (List.range k).map (offset + ·), decide (Mapped blockSize content p) = true := by
    intro p hp
    obtain ⟨i, hi, rfl⟩ := List.mem_map.mp hp
    exact decide_eq_true (h i (List.mem_range.mp hi))
  rw [readable, hRange, List.takeWhile_append_of_pos hMapped, List.map_append, List.map_map, readable]
  rfl

theorem readable_hole (h : ¬ Mapped blockSize content offset) : readable blockSize content offset n = [] := by
  cases n with
  | zero => rfl
  | succ n =>
    rw [readable, List.range_succ_eq_map, List.map_cons, List.takeWhile_cons, if_neg]
    · rfl
    · rw [Nat.add_zero]
      exact fun hMapped => h (of_decide_eq_true hMapped)

theorem readable_eq_map_iff {f : Nat → UInt8} :
    readable blockSize content offset n = (List.range n).map (fun i => f (offset + i)) ↔
      ∀ i < n, Mapped blockSize content (offset + i) ∧ fileByte blockSize content (offset + i) = f (offset + i) := by
  have hAll : (∀ i < n, Mapped blockSize content (offset + i)) → readable blockSize content offset n =
      (List.range n).map fun i => fileByte blockSize content (offset + i) := by
    intro h
    have hRead := readable_add (n := 0) h
    rw [Nat.add_zero] at hRead
    rw [hRead]
    exact List.append_nil _
  constructor
  · intro h
    have hMapped : ∀ i < n, Mapped blockSize content (offset + i) := by
      intro i
      induction i using Nat.strong_induction_on with
      | _ i ih =>
        intro hi
        by_contra hHole
        have hRead := readable_add (n := n - i) fun j hj => ih j hj (hj.trans hi)
        rw [readable_hole hHole, Nat.add_sub_cancel' hi.le, h] at hRead
        have hLength := congrArg List.length hRead
        simp only [List.length_map, List.length_range, List.append_nil] at hLength
        omega
    rw [hAll hMapped] at h
    refine fun i hi => ⟨hMapped i hi, ?_⟩
    exact List.map_inj_left.mp h i (List.mem_range.mpr hi)
  · intro h
    rw [hAll fun i hi => (h i hi).1]
    exact List.map_congr_left fun i hi => (h i (List.mem_range.mp hi)).2

end Bytes

/-! ### What a read returns -/

section Reads

variable {fs₀ : Ext4Fs} {disk₀ : Nat → Mem} {E : Volume → Prop}

def Ext4Fs.content (fs : Ext4Fs) (disk : Nat → Mem) (ino : Nat) : Nat → Option Mem :=
  blockContent fs.ptrsPerBlock disk (fs.inodeOn disk ino)

theorem block_of_pos {blockSize pos i : Nat} (hPos : 0 < blockSize) (hi : i < blockSize - pos % blockSize) :
    (pos + i) / blockSize = pos / blockSize ∧ (pos + i) % blockSize = pos % blockSize + i := by
  have hSplit := Nat.div_add_mod pos blockSize
  have hLt := Nat.mod_lt pos hPos
  have hHere : pos + i = blockSize * (pos / blockSize) + (pos % blockSize + i) := by omega
  have hSmall : pos % blockSize + i < blockSize := by omega
  have hZero : (pos % blockSize + i) / blockSize = 0 := Nat.div_eq_of_lt hSmall
  have hSelf : (pos % blockSize + i) % blockSize = pos % blockSize + i := Nat.mod_eq_of_lt hSmall
  constructor
  · rw [hHere, Nat.mul_add_div hPos, hZero, Nat.add_zero]
  · rw [hHere, Nat.mul_add_mod, hSelf]

/-- By induction on the rounds: the bytes copied so far and the rest of what can be read are what can be read. -/
theorem readLoop_granted (inode : Mem) {offset len : Nat} (hPos : 0 < fs₀.blockSize) (hEnd : offset + len < 2 ^ 64)
    (fuel : Nat) (bytes : List UInt8) (hLength : bytes.length ≤ len) (hFuel : len - bytes.length ≤ fuel) :
    Triple (Granted fun fs disk => fs = fs₀ ∧ disk = disk₀) (readLoop inode offset len fuel bytes)
      (fun result => Granted fun fs disk => (fs = fs₀ ∧ disk = disk₀) ∧
        result = bytes ++ readable fs₀.blockSize (blockContent fs₀.ptrsPerBlock disk₀ inode) (offset + bytes.length)
          (len - bytes.length)) E := by
  induction fuel generalizing bytes with
  | zero =>
    have hNone : len - bytes.length = 0 := by omega
    refine Triple.pure fun _ hs => hs.imp fun h => ⟨h, ?_⟩
    rw [hNone]
    exact (List.append_nil bytes).symm
  | succ fuel ih =>
    unfold readLoop
    split
    case isFalse hDone =>
      have hNone : len - bytes.length = 0 := by omega
      refine Triple.pure fun _ hs => hs.imp fun h => ⟨h, ?_⟩
      rw [hNone]
      exact (List.append_nil bytes).symm
    case isTrue hMore =>
      refine get_granted fun st hst => ?_
      obtain ⟨hFs, hDisk⟩ := hst
      rw [hFs]
      have hNoWrap : (offset + bytes.length) % 2 ^ 64 = offset + bytes.length := Nat.mod_eq_of_lt (by omega)
      dsimp only
      rw [hNoWrap]
      set pos := offset + bytes.length with hPosDef
      refine Triple.bind (ext4GetFileBlock_granted inode _) fun diskBlock => ?_
      refine Triple.granted_weaken (Q := fun fs disk =>
        blockContent fs₀.ptrsPerBlock disk₀ inode (pos / fs₀.blockSize) =
          (if diskBlock = 0 then none else some (disk₀ diskBlock)) ∧ fs = fs₀ ∧ disk = disk₀) ?_ ?_
      swap
      · rintro fs disk ⟨⟨⟨rfl, rfl⟩, -⟩, rfl⟩
        exact ⟨rfl, rfl, rfl⟩
      refine Triple.granted_and fun hContent => ?_
      split
      case isTrue hHole =>
        refine Triple.pure fun _ hs => hs.imp fun hSame => ⟨hSame, ?_⟩
        have hUnmapped : ¬ Mapped fs₀.blockSize (blockContent fs₀.ptrsPerBlock disk₀ inode) pos := by
          rw [Mapped, hContent, if_pos hHole]
          exact Bool.false_ne_true
        rw [readable_hole hUnmapped, List.append_nil]
      case isFalse hSome =>
        rw [if_neg hSome] at hContent
        refine Triple.attempt_bind_total (ext4ReadBlock_granted diskBlock) fun buf => ?_
        refine Triple.granted_weaken (Q := fun fs disk => buf = disk₀ diskBlock ∧ fs = fs₀ ∧ disk = disk₀) ?_ ?_
        swap
        · rintro fs disk ⟨⟨rfl, rfl⟩, rfl⟩
          exact ⟨rfl, rfl, rfl⟩
        refine Triple.granted_and fun hBuf => ?_
        dsimp only
        set toCopy := min (fs₀.blockSize - pos % fs₀.blockSize) (len - bytes.length) with hCopy
        have hRem := Nat.mod_lt pos hPos
        have hLen : (bytes ++ (List.range toCopy).map fun i => buf (pos % fs₀.blockSize + i)).length =
            bytes.length + toCopy := by simp
        have hBytes : ∀ i < toCopy, Mapped fs₀.blockSize (blockContent fs₀.ptrsPerBlock disk₀ inode) (pos + i) ∧
            fileByte fs₀.blockSize (blockContent fs₀.ptrsPerBlock disk₀ inode) (pos + i) =
              buf (pos % fs₀.blockSize + i) := by
          intro i hi
          obtain ⟨hBlock, hOffset⟩ := @block_of_pos fs₀.blockSize pos i hPos (by omega)
          rw [Mapped, fileByte, hBlock, hOffset, hContent, hBuf]
          exact ⟨rfl, rfl⟩
        refine (ih _ (by rw [hLen]; omega) (by rw [hLen]; omega)).conseq (fun _ => id) ?_ fun _ => id
        refine fun result s hs => hs.imp fun h => ⟨h.1, ?_⟩
        have hRest : len - bytes.length = toCopy + (len - (bytes.length + toCopy)) := by omega
        rw [h.2, hLen, hRest, readable_add fun i hi => (hBytes i hi).1, List.append_assoc, ← Nat.add_assoc,
          List.map_congr_left fun i hi => ((hBytes i (List.mem_range.mp hi)).2).symm]

theorem ext4ReadFile_granted {ino offset len : Nat} (hIno : fs₀.geometry.HasInode ino) (hPos : 0 < fs₀.blockSize)
    (hEnd : offset + len < 2 ^ 64) :
    Triple (Granted fun fs disk => fs = fs₀ ∧ disk = disk₀) (ext4ReadFile ino offset len)
      (fun result => Granted fun fs disk => (fs = fs₀ ∧ disk = disk₀) ∧
        result = readable fs₀.blockSize (fs₀.content disk₀ ino) offset
          (min len (iSizeLo (fs₀.inodeOn disk₀ ino) - offset))) E := by
  unfold ext4ReadFile
  refine Triple.bind (ext4ReadInode_granted hIno fun fs disk h => by rw [h.1]) fun inode => ?_
  refine Triple.granted_weaken (Q := fun fs disk => inode = fs₀.inodeOn disk₀ ino ∧ fs = fs₀ ∧ disk = disk₀) ?_ ?_
  swap
  · rintro fs disk ⟨⟨rfl, rfl⟩, hInode⟩
    exact ⟨hInode, rfl, rfl⟩
  refine Triple.granted_and ?_
  rintro rfl
  split
  case isTrue hBehind =>
    refine Triple.pure fun _ hs => hs.imp fun h => ⟨h, ?_⟩
    have hNone : min len (iSizeLo (fs₀.inodeOn disk₀ ino) - offset) = 0 := by omega
    rw [hNone]
    rfl
  case isFalse hInside =>
    rw [Nat.mod_eq_of_lt hEnd]
    have hLen : (if offset + len > iSizeLo (fs₀.inodeOn disk₀ ino) then iSizeLo (fs₀.inodeOn disk₀ ino) - offset
        else len) = min len (iSizeLo (fs₀.inodeOn disk₀ ino) - offset) := by
      split <;> omega
    dsimp only
    rw [hLen]
    refine Triple.bind kmalloc_granted fun _ => ?_
    exact readLoop_granted _ hPos (by omega) _ [] (Nat.zero_le _) (Nat.le_refl _)

end Reads

end UnixOS.Fs.Ext4
