import Mathlib.Algebra.Order.BigOperators.Group.Finset
import UnixOS.Fs.Ext4Runs

/-! # Free counts

Each group descriptor and the superblock count the clear bits of the bitmaps, in two halves. The
allocators change the low half alone and do not look at the bit they give back. Here is when the counts stay right,
over runs of the four allocator calls with other writes in between.
-/

namespace UnixOS.Fs.Ext4

open ByteMemory ByteBitmap Fallible

structure Account where
  map : Bitmap
  superHi : Ext4Fs → Nat

def blockAccount : Account :=
  ⟨blockBitmap, fun fs => if fs.descSize ≥ 64 then load fs.sb 4 344 else 0⟩

def inodeAccount : Account := ⟨inodeBitmap, fun _ => 0⟩

namespace Account

variable (a : Account) (fs : Ext4Fs) (disk : Nat → Mem)

def groupLo (group : Nat) : Nat := load fs.groupDescs 2 (64 * group + a.map.groupLo)

def superLo : Nat := load fs.sb 4 a.map.superCount

def superFree : Nat := a.superLo fs ||| (a.superHi fs <<< 32)

def zeros (group : Nat) : Nat := zeroBits (disk (a.map.block fs group)) (a.map.limit fs)

structure Right : Prop where
  groups : ∀ g < fs.groupCount, a.map.freeCount fs g = a.zeros fs disk g
  total : a.superFree fs = ∑ g ∈ Finset.range fs.groupCount, a.zeros fs disk g

def groupOrder (fs : Ext4Fs) (preferredGroup : Nat) : List Nat :=
  (List.range fs.groupCount).map fun g => (preferredGroup + g) % 2 ^ 32 % fs.groupCount

def nextGroup (preferredGroup : Nat) : Option Nat :=
  (groupOrder fs preferredGroup).find? fun g => a.map.freeCount fs g ≠ 0

def NoBorrow (preferredGroup : Nat) (mem : Bool) : Prop :=
  preferredGroup + fs.groupCount ≤ 2 ^ 32 ∧ ∀ g, a.nextGroup fs preferredGroup = some g →
    mem = true ∧ a.groupLo fs g ≠ 0 ∧ a.superLo fs ≠ 0

def NoCarry (group index : Nat) : Prop :=
  BitIsSet (disk (a.map.block fs group)) index ∧ a.groupLo fs group ≠ 2 ^ 16 - 1 ∧
    a.superLo fs ≠ 2 ^ 32 - 1

end Account

def Image.Counted (im : Image) : Prop :=
  blockAccount.Right im.fs im.disk ∧ inodeAccount.Right im.fs im.disk

/-- Bitmaps of their own for each group, which the searches reach in full, and numbers that an `int`
holds. -/
structure Geometry.Regular (geo : Geometry) : Prop where
  blocks_inj : ∀ g < geo.groupCount, ∀ g' < geo.groupCount, geo.blockBitmap g = geo.blockBitmap g' → g = g'
  inodes_inj : ∀ g < geo.groupCount, ∀ g' < geo.groupCount, geo.inodeBitmap g = geo.inodeBitmap g' → g = g'
  apart : ∀ g < geo.groupCount, ∀ g' < geo.groupCount, geo.blockBitmap g ≠ geo.inodeBitmap g'
  group_pos : 0 < geo.blocksPerGroup
  group_le : geo.blocksPerGroup ≤ 8 * geo.blockSize
  inodes_pos : 0 < geo.inodesPerGroup
  inodes_dvd : 8 ∣ geo.inodesPerGroup
  blocks_le : geo.firstDataBlock + geo.groupCount * geo.blocksPerGroup ≤ 2 ^ 31
  inodes_lt : geo.groupCount * geo.inodesPerGroup < 2 ^ 31

/-- The allocator calls, each with whether it gets its buffer, and the writes of other blocks. -/
inductive Event where
  | allocBlock (preferredGroup : Nat) (mem : Bool)
  | freeBlock (block : Nat) (mem : Bool)
  | allocInode (preferredGroup : Nat) (mem : Bool)
  | freeInode (ino : Nat) (mem : Bool)
  | write (block : Nat) (buf : Mem)

def Image.volume (im : Image) (mem : Bool) : Volume :=
  ⟨im.fs, im.disk, fun _ => mem, fun _ => true, fun _ => true⟩

def Volume.image (st : Volume) : Image := ⟨st.fs, st.disk⟩

namespace Event

def next (im : Image) : Event → Image
  | .allocBlock preferredGroup mem => (ext4AllocBlock preferredGroup (im.volume mem)).2.image
  | .freeBlock block mem => (ext4FreeBlock block (im.volume mem)).2.image
  | .allocInode preferredGroup mem => (ext4AllocInode preferredGroup (im.volume mem)).2.image
  | .freeInode ino mem => (ext4FreeInode ino (im.volume mem)).2.image
  | .write block buf => ⟨im.fs, Function.update im.disk block buf⟩

def Refused (im : Image) : Event → Prop
  | .allocBlock preferredGroup mem => (ext4AllocBlock preferredGroup (im.volume mem)).1 = none
  | .allocInode preferredGroup mem => (ext4AllocInode preferredGroup (im.volume mem)).1 = none
  | _ => False

def Full (im : Image) : Event → Prop
  | .allocBlock _ _ => ∀ g < im.fs.groupCount, blockAccount.zeros im.fs im.disk g = 0
  | .allocInode _ _ => ∀ g < im.fs.groupCount, inodeAccount.zeros im.fs im.disk g = 0
  | _ => True

def Clean (im : Image) : Event → Prop
  | .allocBlock preferredGroup mem => blockAccount.NoBorrow im.fs preferredGroup mem
  | .freeBlock block mem =>
    mem = true → im.fs.firstDataBlock ≤ block →
      (block - im.fs.firstDataBlock) / im.fs.blocksPerGroup % 2 ^ 32 < im.fs.groupCount →
      blockAccount.NoCarry im.fs im.disk
        ((block - im.fs.firstDataBlock) / im.fs.blocksPerGroup % 2 ^ 32)
        ((block - im.fs.firstDataBlock) % im.fs.blocksPerGroup)
  | .allocInode preferredGroup mem => inodeAccount.NoBorrow im.fs preferredGroup mem
  | .freeInode ino mem =>
    mem = true → ino ≠ 0 → (ino - 1) / im.fs.inodesPerGroup < im.fs.groupCount →
      inodeAccount.NoCarry im.fs im.disk ((ino - 1) / im.fs.inodesPerGroup)
        ((ino - 1) % im.fs.inodesPerGroup)
  | .write block _ =>
    ∀ g < im.fs.groupCount, ext4GetBlockBitmap im.fs g ≠ block ∧ ext4GetInodeBitmap im.fs g ≠ block

end Event

def Image.through (im : Image) (events : List Event) : Image := events.foldl Event.next im

def Image.CleanRun : Image → List Event → Prop
  | _, [] => True
  | im, e :: events => e.Clean im ∧ (e.next im).CleanRun events

/-! ### What the searches do -/

section Searches

variable (b : Bitmap) (fs : Ext4Fs) (disk : Nat → Mem) {st : Volume}

def Bitmap.lookIn (group : Nat) : Option Nat :=
  if b.freeCount fs group = 0 then none
  else findFreeBit (disk (b.block fs group)) (b.bytes fs) (b.limit fs)

def Bitmap.search (groups : List Nat) : Option (Nat × Nat) :=
  groups.findSome? fun g => (b.lookIn fs disk g).map (g, ·)

def Bitmap.searched : Option (Nat × Nat) → Ext4Fs × (Nat → Mem)
  | none => (fs, disk)
  | some (group, index) => b.taken fs disk group index

structure Leads (st st' : Volume) (s : Ext4Fs × (Nat → Mem)) : Prop where
  fs : st'.fs = s.1
  disk : st'.disk = s.2
  mem : st'.mem = st.mem
  zeros : st'.zeros = st.zeros
  io : ∀ n, st'.io n = true

theorem ext4ReadBlock_eq (hIo : ∀ n, st.io n = true) (block : Nat) :
    ext4ReadBlock block st = (some (st.disk block), { st with io := fun n => st.io (n + 1) }) := by
  rw [ext4ReadBlock, if_pos (hIo 0)]

theorem ext4WriteBlockRaw_eq (hIo : ∀ n, st.io n = true) (block : Nat) (buf : Mem) :
    ext4WriteBlockRaw block buf st = (some (), { st with
      disk := Function.update st.disk block buf, io := fun n => st.io (n + 1) }) := by
  rw [ext4WriteBlockRaw, if_pos (hIo 0)]

theorem Bitmap.takeIn_eq (hIo : ∀ n, st.io n = true) (group : Nat) :
    ∃ st', b.takeIn group st = (some (b.lookIn st.fs st.disk group), st') ∧
      Leads st st' (b.searched st.fs st.disk ((b.lookIn st.fs st.disk group).map (group, ·))) := by
  unfold takeIn lookIn
  rw [Run.bind_of_some (Run.get_run st), Run.ite_run]
  by_cases hZero : b.freeCount st.fs group = 0
  · rw [if_pos hZero, if_pos hZero]
    exact ⟨st, rfl, rfl, rfl, rfl, rfl, hIo⟩
  · rw [if_neg hZero, if_neg hZero, Run.bind_of_some (a := some (st.disk (b.block st.fs group)))
      (by rw [Run.attempt, ext4ReadBlock_eq hIo])]
    dsimp only
    cases hFound : findFreeBit (st.disk (b.block st.fs group)) (b.bytes st.fs) (b.limit st.fs) with
    | none => exact ⟨_, rfl, rfl, rfl, rfl, rfl, fun n => hIo (n + 1)⟩
    | some index =>
      dsimp only
      rw [Run.bind_of_some (ext4WriteBlockRaw_eq (fun n => hIo (n + 1)) _ _),
        Run.bind_of_some (Run.modify_run _ _)]
      exact ⟨_, rfl, rfl, rfl, rfl, rfl, fun n => hIo (n + 2)⟩

theorem Bitmap.takeFrom_eq (hIo : ∀ n, st.io n = true) (groups : List Nat) :
    ∃ st', b.takeFrom groups st = (b.search st.fs st.disk groups, st') ∧
      Leads st st' (b.searched st.fs st.disk (b.search st.fs st.disk groups)) := by
  induction groups generalizing st with
  | nil => exact ⟨st, rfl, rfl, rfl, rfl, rfl, hIo⟩
  | cons group rest ih =>
    obtain ⟨st₁, hHere, hLeads⟩ := b.takeIn_eq hIo group
    rw [takeFrom, Run.bind_of_some hHere, search, List.findSome?_cons]
    cases hFound : b.lookIn st.fs st.disk group with
    | some index =>
      rw [hFound] at hLeads
      exact ⟨st₁, rfl, hLeads⟩
    | none =>
      rw [hFound] at hLeads
      obtain ⟨st₂, hRest, hLeads'⟩ := ih hLeads.io
      rw [hLeads.fs, hLeads.disk] at hRest hLeads'
      exact ⟨st₂, hRest, hLeads'.fs, hLeads'.disk, hLeads'.mem.trans hLeads.mem,
        hLeads'.zeros.trans hLeads.zeros, hLeads'.io⟩

def Volume.asked (st : Volume) : Volume := { st with mem := fun n => st.mem (n + 1) }

theorem kmalloc_bind {α : Type} (f : Unit → Ext4M α) (st : Volume) :
    (kmalloc >>= f) st = if st.mem 0 then f () st.asked else (none, st.asked) := by
  cases hMem : st.mem 0 with
  | true => exact Run.bind_of_some (by rw [kmalloc, hMem]; rfl)
  | false => exact Run.bind_of_none (by rw [kmalloc, hMem]; rfl)

def Bitmap.found (preferredGroup : Nat) (mem : Bool) : Option (Nat × Nat) :=
  if mem then b.search fs disk (Account.groupOrder fs preferredGroup) else none

theorem Bitmap.take_eq (hIo : ∀ n, st.io n = true) (preferredGroup : Nat) :
    ∃ st', b.take preferredGroup st = (b.found st.fs st.disk preferredGroup (st.mem 0), st') ∧
      Leads st.asked st' (b.searched st.fs st.disk (b.found st.fs st.disk preferredGroup (st.mem 0))) := by
  have hAsked : ∀ n, st.asked.io n = true := hIo
  unfold take found
  rw [kmalloc_bind]
  cases st.mem 0 with
  | false => exact ⟨_, rfl, rfl, rfl, rfl, rfl, hIo⟩
  | true => exact b.takeFrom_eq hAsked (Account.groupOrder st.fs preferredGroup)

theorem Bitmap.release_eq (hIo : ∀ n, st.io n = true) (group index : Nat) :
    ∃ st', b.release group index st = (if st.mem 0 then some () else none, st') ∧
      Leads st.asked st'
        (if st.mem 0 then b.released st.fs st.disk group index else (st.fs, st.disk)) := by
  have hAsked : ∀ n, st.asked.io n = true := hIo
  unfold release
  rw [kmalloc_bind]
  cases st.mem 0 with
  | false => exact ⟨_, rfl, rfl, rfl, rfl, rfl, hIo⟩
  | true =>
    refine ⟨{ st.asked with fs := _, disk := _, io := fun n => st.io (n + 2) }, ?_, rfl, rfl, rfl, rfl,
      fun n => hIo (n + 2)⟩
    rw [if_pos rfl, Run.bind_of_some (Run.get_run st.asked),
      Run.bind_of_some (ext4ReadBlock_eq hAsked _),
      Run.bind_of_some (ext4WriteBlockRaw_eq (fun n => hIo (n + 1)) _ _)]
    rfl

end Searches

/-! ### Finding a clear bit -/

theorem mod_eight_lt (i : Nat) : i % 8 < 8 := Nat.mod_lt i (by decide)

theorem findFreeBit_none {bitmap : Mem} {bytes limit : Nat} (h : findFreeBit bitmap bytes limit = none)
    {i : Nat} (hi : i < limit) (hByte : i / 8 < bytes) : BitIsSet bitmap i := by
  by_contra hClear
  have hMask : bitmap (i / 8) &&& bitMask (i % 8) = 0 := not_not.mp hClear
  have hHere := List.findSome?_eq_none_iff.mp h (i / 8) (List.mem_range.mpr hByte)
  have hNotFull : bitmap (i / 8) ≠ 0xFF := by
    intro hFull
    rw [hFull] at hMask
    have hAll : ∀ j < 8, (0xFF : UInt8) &&& bitMask j ≠ 0 := by decide
    exact hAll _ (mod_eight_lt i) hMask
  rw [if_neg hNotFull] at hHere
  split at hHere
  case h_1 hNone =>
    have hSet := List.find?_eq_none.mp hNone (i % 8) (List.mem_range.mpr (mod_eight_lt i))
    exact hSet (decide_eq_true hMask)
  case h_2 bit hFirst =>
    split at hHere
    case isFalse hNear => cases hHere
    case isTrue hFar =>
      -- the first clear bit of the byte is not behind bit `i`
      have hLe : bit ≤ i % 8 := by
        by_contra hLater
        have hBefore := List.find?_range_eq_some.mp hFirst |>.2.2 (i % 8) (Nat.lt_of_not_le hLater)
        rw [decide_eq_true hMask] at hBefore
        cases hBefore
      omega

/-! ### Halves -/

def Account.Known (a : Account) : Prop := a = blockAccount ∨ a = inodeAccount

namespace Account

variable {a a' : Account} {fs : Ext4Fs} {disk : Nat → Mem} {g g' m n : Nat}

def groupHi (a : Account) (fs : Ext4Fs) (group : Nat) : Nat :=
  if fs.descSize ≥ 64 then load fs.groupDescs 2 (64 * group + a.map.groupHi) else 0

theorem or_shift {x y k : Nat} (hx : x < 2 ^ k) : x ||| (y <<< k) = x + y * 2 ^ k := by
  rw [Nat.or_comm, ← Nat.shiftLeft_add_eq_or_of_lt hx, Nat.shiftLeft_eq, Nat.add_comm]

theorem freeCount_eq : a.map.freeCount fs g = a.groupLo fs g + a.groupHi fs g * 2 ^ 16 := by
  have hLo : a.groupLo fs g < 2 ^ 16 := load_lt _ 2 _
  unfold Bitmap.freeCount groupHi
  split
  case isTrue hWide => exact or_shift hLo
  case isFalse hNarrow => rw [Nat.zero_mul, Nat.add_zero, groupLo]

theorem superFree_eq : a.superFree fs = a.superLo fs + a.superHi fs * 2 ^ 32 :=
  or_shift (load_lt _ 4 _)

theorem Known.map (h : a.Known) : a.map = blockBitmap ∨ a.map = inodeBitmap := by
  rcases h with rfl | rfl
  · exact Or.inl rfl
  · exact Or.inr rfl

theorem groupLo_count_self :
    a.groupLo (a.map.count fs g m n) g = (a.groupLo fs g + m) % 2 ^ 16 := load_store_same _ _ 2 _

theorem superLo_count_self : a.superLo (a.map.count fs g m n) = (a.superLo fs + n) % 2 ^ 32 :=
  load_store_same _ _ 4 _

theorem groupLo_count (h : a.Known) (h' : a'.Known) (hOther : a' ≠ a ∨ g' ≠ g) :
    a'.groupLo (a.map.count fs g m n) g' = a'.groupLo fs g' := by
  refine load_store_disjoint ?_
  rcases h with rfl | rfl <;> rcases h' with rfl | rfl <;>
    simp only [blockAccount, inodeAccount, blockBitmap, inodeBitmap, ne_eq, not_true, false_or] at * <;>
    omega

theorem groupHi_count (h : a.Known) (h' : a'.Known) :
    a'.groupHi (a.map.count fs g m n) g' = a'.groupHi fs g' := by
  have hLoad : load (a.map.count fs g m n).groupDescs 2 (64 * g' + a'.map.groupHi) =
      load fs.groupDescs 2 (64 * g' + a'.map.groupHi) := by
    refine load_store_disjoint ?_
    rcases h with rfl | rfl <;> rcases h' with rfl | rfl <;>
      simp only [blockAccount, inodeAccount, blockBitmap, inodeBitmap] <;> omega
  rw [groupHi, hLoad, groupHi]
  rfl

theorem superLo_count (h : a.Known) (h' : a'.Known) (hOther : a' ≠ a) :
    a'.superLo (a.map.count fs g m n) = a'.superLo fs := by
  refine load_store_disjoint ?_
  rcases h with rfl | rfl <;> rcases h' with rfl | rfl <;>
    simp only [blockAccount, inodeAccount, blockBitmap, inodeBitmap, ne_eq, not_true] at * <;> omega

theorem superHi_count (h : a.Known) (h' : a'.Known) :
    a'.superHi (a.map.count fs g m n) = a'.superHi fs := by
  rcases h' with rfl | rfl
  · have hLoad : load (a.map.count fs g m n).sb 4 344 = load fs.sb 4 344 := by
      refine load_store_disjoint ?_
      rcases h with rfl | rfl <;> simp only [blockAccount, inodeAccount, blockBitmap, inodeBitmap] <;>
        omega
    simp only [blockAccount, hLoad]
    rfl
  · rfl

theorem freeCount_count (h : a.Known) (h' : a'.Known) (hOther : a' ≠ a ∨ g' ≠ g) :
    a'.map.freeCount (a.map.count fs g m n) g' = a'.map.freeCount fs g' := by
  rw [freeCount_eq, freeCount_eq, groupLo_count h h' hOther, groupHi_count h h']

theorem zeros_count (h : a.Known) (h' : a'.Known) :
    a'.zeros (a.map.count fs g m n) disk g' = a'.zeros fs disk g' := by
  have hGeo := geometry_count h.map fs g m n
  have hBlock : a'.map.block (a.map.count fs g m n) g' = a'.map.block fs g' := by
    rcases h' with rfl | rfl
    · exact congrFun (congrArg Geometry.blockBitmap hGeo) g'
    · exact congrFun (congrArg Geometry.inodeBitmap hGeo) g'
  have hLimit : a'.map.limit (a.map.count fs g m n) = a'.map.limit fs := by
    rcases h' with rfl | rfl
    · exact congrArg Geometry.blocksPerGroup hGeo
    · exact congrArg Geometry.inodesPerGroup hGeo
  rw [zeros, zeros, hBlock, hLimit]

/-! ### One bit changes -/

theorem sum_change {f f' : Nat → Nat} {k : Nat} (hg : g < k) (hElse : ∀ x, x < k → x ≠ g → f' x = f x) :
    ∑ x ∈ Finset.range k, f' x + f g = ∑ x ∈ Finset.range k, f x + f' g := by
  have hMem := Finset.mem_range.mpr hg
  have hRest : ∑ x ∈ (Finset.range k).erase g, f' x = ∑ x ∈ (Finset.range k).erase g, f x := by
    refine Finset.sum_congr rfl fun x hx => ?_
    obtain ⟨hNe, hIn⟩ := Finset.mem_erase.mp hx
    exact hElse x (Finset.mem_range.mp hIn) hNe
  rw [← Finset.add_sum_erase _ f' hMem, ← Finset.add_sum_erase _ f hMem, hRest]
  omega

theorem block_ne (hGeo : fs.geometry.Regular) (h : a.Known) (h' : a'.Known) (hg : g < fs.groupCount)
    (hg' : g' < fs.groupCount) (hOther : a' ≠ a ∨ g' ≠ g) : a'.map.block fs g' ≠ a.map.block fs g := by
  intro hSame
  rcases h with rfl | rfl <;> rcases h' with rfl | rfl
  · exact hOther.elim (fun hNe => hNe rfl) fun hNe => hNe (hGeo.blocks_inj g' hg' g hg hSame)
  · exact hGeo.apart g hg g' hg' hSame.symm
  · exact hGeo.apart g' hg' g hg hSame
  · exact hOther.elim (fun hNe => hNe rfl) fun hNe => hNe (hGeo.inodes_inj g' hg' g hg hSame)

theorem zeros_update (hGeo : fs.geometry.Regular) (h : a.Known) (h' : a'.Known) (hg : g < fs.groupCount)
    (hg' : g' < fs.groupCount) (hOther : a' ≠ a ∨ g' ≠ g) (buf : Mem) :
    a'.zeros fs (Function.update disk (a.map.block fs g) buf) g' = a'.zeros fs disk g' := by
  rw [zeros, Function.update_of_ne (block_ne hGeo h h' hg hg' hOther), zeros]

theorem zeros_update_self (buf : Mem) :
    a.zeros fs (Function.update disk (a.map.block fs g) buf) g = zeroBits buf (a.map.limit fs) := by
  rw [zeros, Function.update_self]

theorem Right.other (hRight : a'.Right fs disk) (hGeo : fs.geometry.Regular) (h : a.Known) (h' : a'.Known)
    (hNe : a' ≠ a) (hg : g < fs.groupCount) (buf : Mem) :
    a'.Right (a.map.count fs g m n) (Function.update disk (a.map.block fs g) buf) := by
  have hZeros : ∀ x, x < fs.groupCount → a'.zeros (a.map.count fs g m n)
      (Function.update disk (a.map.block fs g) buf) x = a'.zeros fs disk x := by
    intro x hx
    rw [zeros_count h h', zeros_update hGeo h h' hg hx (Or.inl hNe)]
  constructor
  · intro x hx
    rw [freeCount_count h h' (Or.inl hNe), hZeros x hx]
    exact hRight.groups x hx
  · rw [superFree_eq, superLo_count h h' hNe, superHi_count h h', ← superFree_eq, hRight.total]
    exact Finset.sum_congr rfl fun x hx => (hZeros x (Finset.mem_range.mp hx)).symm

theorem Right.changed (hRight : a.Right fs disk) (hGeo : fs.geometry.Regular) (h : a.Known)
    (hg : g < fs.groupCount) {buf : Mem}
    (hGroup : (a.groupLo fs g + m) % 2 ^ 16 + a.zeros fs disk g =
      a.groupLo fs g + zeroBits buf (a.map.limit fs))
    (hSuper : (a.superLo fs + n) % 2 ^ 32 + a.zeros fs disk g =
      a.superLo fs + zeroBits buf (a.map.limit fs)) :
    a.Right (a.map.count fs g m n) (Function.update disk (a.map.block fs g) buf) := by
  have hHere : a.zeros (a.map.count fs g m n) (Function.update disk (a.map.block fs g) buf) g =
      zeroBits buf (a.map.limit fs) := by
    rw [zeros_count h h, zeros_update_self]
  have hElse : ∀ x, x < fs.groupCount → x ≠ g → a.zeros (a.map.count fs g m n)
      (Function.update disk (a.map.block fs g) buf) x = a.zeros fs disk x := by
    intro x hx hNe
    rw [zeros_count h h, zeros_update hGeo h h hg hx (Or.inr hNe)]
  constructor
  · intro x hx
    by_cases hx' : x = g
    · subst hx'
      have hOld := hRight.groups x hg
      rw [freeCount_eq] at hOld
      rw [freeCount_eq, groupLo_count_self, groupHi_count h h, hHere]
      omega
    · rw [hElse x hx hx', freeCount_count h h (Or.inr hx')]
      exact hRight.groups x hx
  · have hSum := sum_change hg hElse
    have hOld := hRight.total
    rw [superFree_eq] at hOld
    rw [hHere] at hSum
    have hNow : a.superFree (a.map.count fs g m n) + a.zeros fs disk g =
        ∑ x ∈ Finset.range fs.groupCount, a.zeros fs disk x + zeroBits buf (a.map.limit fs) := by
      rw [superFree_eq, superLo_count_self, superHi_count h h]
      omega
    exact Nat.add_right_cancel (hNow.trans hSum.symm)

theorem Right.taken (hRight : a.Right fs disk) (hGeo : fs.geometry.Regular) (h : a.Known)
    (hg : g < fs.groupCount) {i : Nat} (hi : i < a.map.limit fs)
    (hClear : ¬ BitIsSet (disk (a.map.block fs g)) i) (hLo : a.groupLo fs g ≠ 0) (hSuper : a.superLo fs ≠ 0) :
    a.Right (a.map.taken fs disk g i).1 (a.map.taken fs disk g i).2 := by
  have hBits : zeroBits (setBit (disk (a.map.block fs g)) i) (a.map.limit fs) + 1 = a.zeros fs disk g :=
    zeroBits_setBit hi hClear
  have hLoLt : a.groupLo fs g < 2 ^ 16 := load_lt _ 2 _
  have hSuperLt : a.superLo fs < 2 ^ 32 := load_lt _ 4 _
  exact hRight.changed hGeo h hg (by omega) (by omega)

theorem Right.released (hRight : a.Right fs disk) (hGeo : fs.geometry.Regular) (h : a.Known)
    (hg : g < fs.groupCount) {i : Nat} (hi : i < a.map.limit fs) (hCarry : a.NoCarry fs disk g i) :
    a.Right (a.map.released fs disk g i).1 (a.map.released fs disk g i).2 := by
  obtain ⟨hSet, hLo, hSuper⟩ := hCarry
  have hBits : zeroBits (clearBit (disk (a.map.block fs g)) i) (a.map.limit fs) = a.zeros fs disk g + 1 :=
    zeroBits_clearBit hi hSet
  have hLoLt : a.groupLo fs g < 2 ^ 16 := load_lt _ 2 _
  have hSuperLt : a.superLo fs < 2 ^ 32 := load_lt _ 4 _
  exact hRight.changed hGeo h hg (by omega) (by omega)

/-! ### What a search finds -/

theorem mem_groupOrder {p : Nat} (hp : p + fs.groupCount ≤ 2 ^ 32) : g ∈ groupOrder fs p ↔ g < fs.groupCount := by
  unfold groupOrder
  rw [List.mem_map]
  constructor
  · rintro ⟨k, hk, rfl⟩
    exact Nat.mod_lt _ (Nat.zero_lt_of_lt (List.mem_range.mp hk))
  · intro hg
    have hPos := Nat.zero_lt_of_lt hg
    have hRem := Nat.mod_lt p hPos
    have hSplit := Nat.div_add_mod p fs.groupCount
    have hEnd : ∀ k < fs.groupCount, ∀ q, p + k = fs.groupCount * q + g →
        (p + k) % 2 ^ 32 % fs.groupCount = g := by
      intro k hk q hEq
      rw [Nat.mod_eq_of_lt (Nat.lt_of_lt_of_le (Nat.add_lt_add_left hk p) hp), hEq, Nat.mul_add_mod,
        Nat.mod_eq_of_lt hg]
    by_cases hLe : p % fs.groupCount ≤ g
    · refine ⟨g - p % fs.groupCount, List.mem_range.mpr (by omega), hEnd _ (by omega) (p / fs.groupCount) ?_⟩
      omega
    · refine ⟨g + fs.groupCount - p % fs.groupCount, List.mem_range.mpr (by omega),
        hEnd _ (by omega) (p / fs.groupCount + 1) ?_⟩
      rw [Nat.mul_succ]
      omega

theorem lookIn_clear (hRight : a.Right fs disk) (hReach : a.map.limit fs ≤ 8 * a.map.bytes fs)
    (hg : g < fs.groupCount) (hCount : a.map.freeCount fs g ≠ 0) :
    ∃ i, a.map.lookIn fs disk g = some i ∧ i < a.map.limit fs ∧
      ¬ BitIsSet (disk (a.map.block fs g)) i := by
  rw [Bitmap.lookIn, if_neg hCount]
  cases hFound : findFreeBit (disk (a.map.block fs g)) (a.map.bytes fs) (a.map.limit fs) with
  | some i =>
    obtain ⟨hi, -, hClear⟩ := findFreeBit_spec hFound
    exact ⟨i, rfl, hi, hClear⟩
  | none =>
    rw [hRight.groups g hg, zeros, zeroBits_ne_zero] at hCount
    obtain ⟨i, hi, hClear⟩ := hCount
    exact absurd (findFreeBit_none hFound hi (by omega)) hClear

theorem search_eq (hRight : a.Right fs disk) (hReach : a.map.limit fs ≤ 8 * a.map.bytes fs)
    {groups : List Nat} (hIn : ∀ g ∈ groups, g < fs.groupCount) :
    match groups.find? fun g => a.map.freeCount fs g ≠ 0 with
    | none => a.map.search fs disk groups = none
    | some g => ∃ i, a.map.search fs disk groups = some (g, i) ∧ i < a.map.limit fs ∧
        ¬ BitIsSet (disk (a.map.block fs g)) i := by
  induction groups with
  | nil => rfl
  | cons g rest ih =>
    have hRest := ih fun x hx => hIn x (List.mem_cons_of_mem g hx)
    by_cases hCount : a.map.freeCount fs g = 0
    · have hNone : a.map.lookIn fs disk g = none := if_pos hCount
      simpa [Bitmap.search, hCount, hNone] using hRest
    · obtain ⟨i, hLook, hi, hClear⟩ := lookIn_clear hRight hReach (hIn g List.mem_cons_self) hCount
      simp only [List.find?_cons, decide_not, hCount, decide_false, Bool.not_false]
      exact ⟨i, by simp [Bitmap.search, hLook], hi, hClear⟩

theorem reach (hGeo : fs.geometry.Regular) (h : a.Known) : a.map.limit fs ≤ 8 * a.map.bytes fs := by
  rcases h with rfl | rfl
  · exact hGeo.group_le
  · exact (Nat.mul_div_cancel' hGeo.inodes_dvd).ge

theorem found_cases (hRight : a.Right fs disk) (hGeo : fs.geometry.Regular) (h : a.Known) {p : Nat}
    {mem : Bool} (hBorrow : a.NoBorrow fs p mem) :
    (a.map.found fs disk p mem = none ∧ ∀ g < fs.groupCount, a.zeros fs disk g = 0) ∨
      ∃ g i, a.map.found fs disk p mem = some (g, i) ∧ g < fs.groupCount ∧ i < a.map.limit fs ∧
        ¬ BitIsSet (disk (a.map.block fs g)) i ∧ a.groupLo fs g ≠ 0 ∧ a.superLo fs ≠ 0 := by
  obtain ⟨hp, hNext⟩ := hBorrow
  have hSearch := search_eq hRight (reach hGeo h) fun g hg => (mem_groupOrder hp).mp hg
  unfold nextGroup at hNext
  unfold Bitmap.found
  cases hFirst : (groupOrder fs p).find? fun g => a.map.freeCount fs g ≠ 0 with
  | none =>
    rw [hFirst] at hSearch
    refine Or.inl ⟨?_, fun g hg => ?_⟩
    · rw [hSearch, ite_self]
    · have hZero := List.find?_eq_none.mp hFirst g ((mem_groupOrder hp).mpr hg)
      rw [← hRight.groups g hg]
      simpa using hZero
  | some g =>
    rw [hFirst] at hSearch hNext
    obtain ⟨i, hFound, hi, hClear⟩ := hSearch
    obtain ⟨hMem, hLo, hSuper⟩ := hNext g rfl
    have hg := (mem_groupOrder hp).mp (List.mem_of_find?_eq_some hFirst)
    exact Or.inr ⟨g, i, by rw [if_pos hMem, hFound], hg, hi, hClear, hLo, hSuper⟩

end Account

end UnixOS.Fs.Ext4
