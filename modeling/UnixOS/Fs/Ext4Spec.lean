import UnixOS.Fs.Ext4

/-! # Rules for the driver's functions

Each function has one rule, for any assertion about the file system and the disk that survives its elementary steps,
and for any answers of the allocator and of the device: a call that fails leaves what held before.
-/

namespace UnixOS.Fs.Ext4

open ByteMemory ByteBitmap Fallible

abbrev Assertion := Ext4Fs → (Nat → Mem) → Prop

/-- `Q` holds, and where `sure` holds every device transfer to come succeeds and there is memory to clear indirect
blocks. -/
structure Served (sure : Prop) (Q : Assertion) (st : Volume) : Prop where
  zeros : sure → ∀ n, st.zeros n = true
  io : sure → ∀ n, st.io n = true
  holds : Q st.fs st.disk

abbrev Quiet : Assertion → Volume → Prop := Served True

section Rules

variable {sure : Prop} {α : Type} {Q Q' : Assertion} {R : α → Volume → Prop} {E : Volume → Prop}

theorem Served.imp {st : Volume} (h : Served sure Q st) (hImp : Q st.fs st.disk → Q' st.fs st.disk) :
    Served sure Q' st := ⟨h.zeros, h.io, hImp h.holds⟩

theorem kmalloc_spec (hFail : ∀ fs disk, Q fs disk → Q' fs disk) :
    Triple (Served sure Q) kmalloc (fun _ => Served sure Q) (Served sure Q') := by
  intro st h
  unfold kmalloc
  cases st.mem 0 with
  | true => exact ⟨h.zeros, h.io, h.holds⟩
  | false => exact ⟨h.zeros, h.io, hFail _ _ h.holds⟩

theorem kmallocZeros_served : Triple (Served sure Q) kmallocZeros (fun _ => Served sure Q)
    (Served sure fun fs disk => ¬ sure ∧ Q fs disk) := by
  intro st h
  unfold kmallocZeros
  cases hZeros : st.zeros 0 with
  | true => exact ⟨fun hSure n => h.zeros hSure (n + 1), h.io, h.holds⟩
  | false =>
    have hNot : ¬ sure := fun hSure => by simp [h.zeros hSure 0] at hZeros
    exact ⟨fun hSure => absurd hSure hNot, h.io, hNot, h.holds⟩

theorem ext4ReadBlock_served (b : Nat) : Triple (Served sure Q) (ext4ReadBlock b)
    (fun buf => Served sure fun fs disk => Q fs disk ∧ buf = disk b) (Served sure Q) := by
  intro st h
  unfold ext4ReadBlock
  cases st.io 0 with
  | true => exact ⟨h.zeros, fun hSure n => h.io hSure (n + 1), h.holds, rfl⟩
  | false => exact ⟨h.zeros, fun hSure n => h.io hSure (n + 1), h.holds⟩

theorem ext4WriteBlockRaw_served {b : Nat} {buf : Mem}
    (h : ∀ fs disk, Q fs disk → Q' fs (Function.update disk b buf)) :
    Triple (Served sure Q) (ext4WriteBlockRaw b buf) (fun _ => Served sure Q')
      (Served sure fun fs disk => ¬ sure ∧ Q fs disk) := by
  intro st hst
  unfold ext4WriteBlockRaw
  cases hIo : st.io 0 with
  | true => exact ⟨hst.zeros, fun hSure n => hst.io hSure (n + 1), h _ _ hst.holds⟩
  | false =>
    have hNot : ¬ sure := fun hSure => by simp [hst.io hSure 0] at hIo
    exact ⟨hst.zeros, fun hSure => absurd hSure hNot, hNot, hst.holds⟩

theorem get_spec {f : Volume → Ext4M α}
    (h : ∀ st, Q st.fs st.disk →
      Triple (Served sure fun fs disk => Q fs disk ∧ fs = st.fs ∧ disk = st.disk) (f st) R E) :
    Triple (Served sure Q) (Run.get >>= f) R E := by
  apply Triple.get_bind
  rintro st hst s rfl
  exact h s hst.holds s (hst.imp fun hQ => ⟨hQ, rfl, rfl⟩)

theorem modify_spec {f : Ext4Fs → Ext4Fs} (h : ∀ fs disk, Q fs disk → Q' (f fs) disk) :
    Triple (Served sure Q) (Run.modify fun st => { st with fs := f st.fs }) (fun _ => Served sure Q') E :=
  Triple.modify fun _ hst => ⟨hst.zeros, hst.io, h _ _ hst.holds⟩

theorem fail_spec (h : ∀ fs disk, Q fs disk → Q' fs disk) :
    Triple (Served sure Q) (Run.fail : Ext4M α) R (Served sure Q') :=
  Triple.fail fun _ hst => hst.imp (h _ _)

theorem Triple.weaken {m : Ext4M α} {P : Assertion}
    (h : Triple (Served sure Q) m R E) (hImp : ∀ fs disk, P fs disk → Q fs disk) :
    Triple (Served sure P) m R E :=
  h.conseq (fun _ hst => hst.imp (hImp _ _)) (fun _ _ => id) fun _ => id

theorem Triple.fails {m : Ext4M α} {P : Volume → Prop} (h : Triple P m R (Served sure Q))
    (hImp : ∀ fs disk, Q fs disk → Q' fs disk) : Triple P m R (Served sure Q') :=
  h.conseq (fun _ => id) (fun _ _ => id) fun _ hst => hst.imp (hImp _ _)

theorem Triple.exists_pre {ι : Type} {m : Ext4M α} {P : ι → Assertion}
    (h : ∀ x, Triple (Served sure (P x)) m R E) : Triple (Served sure fun fs disk => ∃ x, P x fs disk) m R E := by
  intro st hst
  obtain ⟨x, hx⟩ := hst.holds
  exact h x st ⟨hst.zeros, hst.io, hx⟩

theorem Triple.and_pre {p : Prop} {m : Ext4M α} (h : p → Triple (Served sure Q) m R E) :
    Triple (Served sure fun fs disk => p ∧ Q fs disk) m R E :=
  fun st hst => h hst.holds.1 st (hst.imp And.right)

/-! On a device that serves every request the transfers do not fail. -/

theorem ext4ReadBlock_spec (b : Nat) : Triple (Quiet Q) (ext4ReadBlock b)
    (fun buf => Quiet fun fs disk => Q fs disk ∧ buf = disk b) E := by
  intro st h
  simp only [ext4ReadBlock, h.io trivial 0, if_true]
  exact ⟨h.zeros, fun _ n => h.io trivial (n + 1), h.holds, rfl⟩

theorem Triple.surely {m : Ext4M α} {P : Volume → Prop}
    (h : Triple P m R (Served True fun fs disk => ¬ True ∧ Q fs disk)) : Triple P m R E :=
  h.conseq (fun _ => id) (fun _ _ => id) fun _ hst => absurd trivial hst.holds.1

theorem kmallocZeros_spec : Triple (Quiet Q) kmallocZeros (fun _ => Quiet Q) E := Triple.surely kmallocZeros_served

theorem ext4WriteBlockRaw_spec {b : Nat} {buf : Mem} (h : ∀ fs disk, Q fs disk → Q' fs (Function.update disk b buf)) :
    Triple (Quiet Q) (ext4WriteBlockRaw b buf) (fun _ => Quiet Q') E := Triple.surely (ext4WriteBlockRaw_served h)

end Rules

/-! ### Bitmaps -/

theorem findFreeBit_spec {bitmap : Mem} {bytes limit index : Nat}
    (h : findFreeBit bitmap bytes limit = some index) :
    index < limit ∧ index / 8 < bytes ∧ ¬ BitIsSet bitmap index := by
  obtain ⟨byte, hByte, hFound⟩ := List.exists_of_findSome?_eq_some h
  split at hFound
  case isTrue hFull => cases hFound
  case isFalse hRoom =>
    split at hFound
    case h_1 hNone => cases hFound
    case h_2 bit hBit =>
      split at hFound
      case isTrue hFar => cases hFound
      case isFalse hNear =>
        cases hFound
        have hClear := List.find?_some hBit
        have hSmall : bit < 8 := List.mem_range.mp (List.mem_of_find?_eq_some hBit)
        have hDiv : (byte * 8 + bit) / 8 = byte := by omega
        have hMod : (byte * 8 + bit) % 8 = bit := by omega
        refine ⟨Nat.lt_of_not_le hNear, ?_, ?_⟩
        · rw [hDiv]
          exact List.mem_range.mp hByte
        · rw [BitIsSet, hDiv, hMod]
          exact fun hSet => hSet (of_decide_eq_true hClear)

def Bitmap.taken (b : Bitmap) (fs : Ext4Fs) (disk : Nat → Mem) (group index : Nat) :
    Ext4Fs × (Nat → Mem) :=
  (b.count fs group 65535 (2 ^ 32 - 1),
    Function.update disk (b.block fs group) (setBit (disk (b.block fs group)) index))

def Bitmap.released (b : Bitmap) (fs : Ext4Fs) (disk : Nat → Mem) (group index : Nat) :
    Ext4Fs × (Nat → Mem) :=
  (b.count fs group 1 1,
    Function.update disk (b.block fs group) (clearBit (disk (b.block fs group)) index))

section Bits

variable {sure : Prop} {b : Bitmap} {Q : Assertion} {T : Nat → Nat → Assertion}

def Bitmap.Takes (b : Bitmap) (Q : Assertion) (T : Nat → Nat → Assertion) (group : Nat) : Prop :=
  ∀ fs disk index, Q fs disk →
    findFreeBit (disk (b.block fs group)) (b.bytes fs) (b.limit fs) = some index →
    T group index (b.taken fs disk group index).1 (b.taken fs disk group index).2

theorem Bitmap.takeIn_spec {group : Nat} (h : b.Takes Q T group) :
    Triple (Served sure Q) (b.takeIn group)
      (fun found => match found with
        | none => Served sure Q
        | some index => Served sure (T group index)) (Served sure Q) := by
  unfold takeIn
  refine get_spec fun st _ => ?_
  split
  case isTrue hNone => exact Triple.pure fun _ hst => hst.imp And.left
  case isFalse hSome =>
    refine Triple.attempt_bind (ext4ReadBlock_served _) (fun bitmap => ?_)
      (Triple.pure fun _ hst => hst.imp And.left)
    dsimp only
    split
    case h_1 hFull => exact Triple.pure fun _ hst => hst.imp fun hQ => hQ.1.1
    case h_2 index hFound =>
      refine Triple.bind (Q := fun _ => Served sure fun fs disk => T group index
        (b.count fs group 65535 (2 ^ 32 - 1)) disk) ?_ fun _ => ?_
      · refine Triple.fails (ext4WriteBlockRaw_served ?_) fun _ _ hQ => hQ.2.1.1
        rintro fs disk ⟨⟨hQ, rfl, -⟩, rfl⟩
        exact h _ disk index hQ hFound
      · refine Triple.bind (Q := fun _ => Served sure (T group index)) ?_ fun _ => Triple.pure fun _ => id
        exact modify_spec (f := fun fs => b.count fs group 65535 (2 ^ 32 - 1)) fun _ _ => id

theorem Bitmap.takeFrom_spec {groups : List Nat} (h : ∀ group ∈ groups, b.Takes Q T group) :
    Triple (Served sure Q) (b.takeFrom groups) (fun found => Served sure (T found.1 found.2)) (Served sure Q) := by
  induction groups with
  | nil => exact Triple.fail fun _ => id
  | cons group rest ih =>
    refine Triple.bind (b.takeIn_spec (h group List.mem_cons_self)) ?_
    intro found
    cases found with
    | none => exact ih fun g hg => h g (List.mem_cons_of_mem group hg)
    | some index => exact Triple.pure fun _ => id

theorem Bitmap.take_spec (groupCount : Nat) (hCount : ∀ fs disk, Q fs disk → fs.groupCount = groupCount)
    (h : ∀ group < groupCount, b.Takes Q T group) (preferred : Nat) :
    Triple (Served sure Q) (b.take preferred) (fun found => Served sure (T found.1 found.2)) (Served sure Q) := by
  unfold take
  refine Triple.bind (kmalloc_spec fun _ _ => id) fun _ => ?_
  refine get_spec fun st hst => ?_
  refine Triple.weaken (Q := Q) (b.takeFrom_spec ?_) fun _ _ => And.left
  intro group hGroup
  obtain ⟨g, hg, rfl⟩ := List.mem_map.mp hGroup
  rw [List.mem_range] at hg
  rw [hCount _ _ hst] at hg ⊢
  exact h _ (Nat.mod_lt _ (by omega))

theorem Bitmap.release_spec {group index : Nat} {Q' Q'' : Assertion}
    (h : ∀ fs disk, Q fs disk → Q' (b.released fs disk group index).1 (b.released fs disk group index).2)
    (hFail : ∀ fs disk, Q fs disk → Q'' fs disk) :
    Triple (Served sure Q) (b.release group index) (fun _ => Served sure Q') (Served sure Q'') := by
  unfold release
  refine Triple.bind (kmalloc_spec hFail) fun _ => ?_
  refine get_spec fun st _ => ?_
  refine Triple.bind (Triple.fails (ext4ReadBlock_served _) fun _ _ hQ => hFail _ _ hQ.1) ?_
  intro bitmap
  refine Triple.bind (Q := fun _ => Served sure fun fs disk => Q' (b.count fs group 1 1) disk) ?_ ?_
  · refine Triple.fails (ext4WriteBlockRaw_served ?_) fun _ _ hQ => hFail _ _ hQ.2.1.1
    rintro fs disk ⟨⟨hQ, rfl, -⟩, rfl⟩
    exact h _ disk hQ
  · exact fun _ => modify_spec (f := fun fs => b.count fs group 1 1) fun _ _ => id

end Bits

/-! ### Block mapping -/

def pointer (disk : Nat → Mem) (b j : Nat) : Nat := load (disk b) 4 (4 * j)

/-- The block found from block `b` by the entries of `path`; zero is no block. -/
def follow (disk : Nat → Mem) : Nat → List Nat → Nat
  | b, [] => b
  | b, j :: path => if b = 0 then 0 else follow disk (pointer disk b j) path

/-- Where the mapping of a file block is kept: the slot of the inode and the entries from there. -/
def mapPath (ptrs fileBlock : Nat) : Option (Nat × List Nat) :=
  if fileBlock < ndirBlocks then some (fileBlock, [])
  else if fileBlock - ndirBlocks < ptrs then some (indBlock, [fileBlock - ndirBlocks])
  else if fileBlock - ndirBlocks - ptrs < ptrs * ptrs % 2 ^ 32 then
    some (dindBlock, [(fileBlock - ndirBlocks - ptrs) / ptrs,
      (fileBlock - ndirBlocks - ptrs) % ptrs])
  else none

def mappedBlock (ptrs : Nat) (disk : Nat → Mem) (inode : Mem) (fileBlock : Nat) : Nat :=
  match mapPath ptrs fileBlock with
  | none => 0
  | some (k, path) => follow disk (iBlock inode k) path

section Mapping

variable {sure : Prop} {Q : Assertion} {E : Volume → Prop}

theorem readPointer_spec (b j : Nat) :
    Triple (Served sure Q) (readPointer b j)
      (fun d => Served sure fun fs disk => Q fs disk ∧ (d ≠ 0 → d = pointer disk b j)) E := by
  unfold readPointer
  refine Triple.attempt_bind (Triple.bind (kmalloc_spec fun _ _ => id) fun _ => ext4ReadBlock_served b) ?_ ?_
  · intro buf
    refine Triple.pure fun _ hst => hst.imp ?_
    rintro ⟨hQ, rfl⟩
    exact ⟨hQ, fun _ => rfl⟩
  · exact Triple.pure fun _ hst => hst.imp fun hQ => ⟨hQ, fun hZero => absurd rfl hZero⟩

theorem ext4GetFileBlock_spec (inode : Mem) (fileBlock : Nat) :
    Triple (Served sure Q) (ext4GetFileBlock inode fileBlock)
      (fun d => Served sure fun fs disk => Q fs disk ∧
        (d ≠ 0 → d = mappedBlock fs.ptrsPerBlock disk inode fileBlock) ∧
        (fileBlock < ndirBlocks → d = iBlock inode fileBlock)) E := by
  unfold ext4GetFileBlock
  refine get_spec fun st _ => ?_
  dsimp only
  split
  case isTrue hDirect =>
    refine Triple.pure fun _ hst => hst.imp ?_
    rintro ⟨hQ, -, -⟩
    refine ⟨hQ, fun _ => ?_, fun _ => rfl⟩
    simp only [mappedBlock, mapPath, hDirect, if_true, follow]
  case isFalse hDirect =>
    have hHole : Triple (Served sure fun fs disk => Q fs disk ∧ fs = st.fs ∧ disk = st.disk) (pure 0)
        (fun d => Served sure fun fs disk => Q fs disk ∧
          (d ≠ 0 → d = mappedBlock fs.ptrsPerBlock disk inode fileBlock) ∧
          (fileBlock < ndirBlocks → d = iBlock inode fileBlock)) E :=
      Triple.pure fun _ hst => hst.imp fun hQ =>
        ⟨hQ.1, fun hZero => absurd rfl hZero, fun hNear => absurd hNear hDirect⟩
    split
    case isTrue hInd =>
      split
      case isTrue hNone => exact hHole
      case isFalse hMapped =>
        refine (readPointer_spec _ _).conseq (fun _ => id) ?_ fun _ => id
        intro d s hst
        refine hst.imp ?_
        rintro ⟨⟨hQ, hfs, -⟩, hPtr⟩
        refine ⟨hQ, ?_, fun hNear => absurd hNear hDirect⟩
        intro hd
        simp only [mappedBlock, mapPath, hDirect, hfs, hInd, if_true, if_false, hMapped, follow]
        exact hPtr hd
    case isFalse hInd =>
      split
      case isFalse hBeyond => exact hHole
      case isTrue hDind =>
        split
        case isTrue hNone => exact hHole
        case isFalse hMapped =>
          refine Triple.bind (readPointer_spec _ _) fun ind => ?_
          split
          case isTrue hNone => exact Triple.weaken hHole fun _ _ => And.left
          case isFalse hNext =>
            refine (readPointer_spec _ _).conseq (fun _ => id) ?_ fun _ => id
            intro d s hst
            refine hst.imp ?_
            rintro ⟨⟨⟨hQ, hfs, -⟩, hOuter⟩, hPtr⟩
            refine ⟨hQ, ?_, fun hNear => absurd hNear hDirect⟩
            intro hd
            simp only [mappedBlock, mapPath, hDirect, hfs, hInd, hDind, if_true, if_false, hMapped,
              follow, ← hOuter hNext, hNext]
            exact hPtr hd

end Mapping

end UnixOS.Fs.Ext4
