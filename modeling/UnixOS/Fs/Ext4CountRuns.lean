import UnixOS.Fs.Ext4Counts

/-! # Runs of the allocators

What each allocator call does to the counts, what a run of them does, and that every call of the driver is
such a run.
-/

namespace UnixOS.Fs.Ext4

open ByteMemory ByteBitmap Fallible

/-! ### The four calls -/

section Calls

variable {st : Volume}

def asNumber (n : Nat) : Option Nat := if n % 2 ^ 32 < 2 ^ 31 then some (n % 2 ^ 32) else none

theorem asInt_eq (n : Nat) (st : Volume) : asInt n st = (asNumber n, st) := by
  unfold asInt asNumber
  rw [Run.ite_run]
  split <;> rfl

def Image.of (s : Ext4Fs × (Nat → Mem)) : Image := ⟨s.1, s.2⟩

theorem Leads.image {st st' : Volume} {s : Ext4Fs × (Nat → Mem)} (h : Leads st st' s) :
    st'.image = Image.of s := by
  rw [Volume.image, h.fs, h.disk, Image.of]

theorem geometry_searched {b : Bitmap} (hb : b = blockBitmap ∨ b = inodeBitmap) (fs : Ext4Fs)
    (disk : Nat → Mem) (found : Option (Nat × Nat)) : (b.searched fs disk found).1.geometry = fs.geometry := by
  cases found with
  | none => rfl
  | some x => exact geometry_count hb fs ..

theorem alloc_eq {b : Bitmap} (hb : b = blockBitmap ∨ b = inodeBitmap) (hIo : ∀ n, st.io n = true)
    (preferredGroup : Nat) (number : Geometry → Nat → Nat → Nat) :
    ∃ st', (do
        let (group, index) ← b.take preferredGroup
        let st ← Run.get
        asInt (number st.fs.geometry group index) : Ext4M Nat) st =
        ((b.found st.fs st.disk preferredGroup (st.mem 0)).bind fun x =>
          asNumber (number st.fs.geometry x.1 x.2), st') ∧
      Leads st.asked st' (b.searched st.fs st.disk (b.found st.fs st.disk preferredGroup (st.mem 0))) := by
  obtain ⟨st', hTake, hLeads⟩ := b.take_eq hIo preferredGroup
  refine ⟨st', ?_, hLeads⟩
  have hGeo := geometry_searched hb st.fs st.disk (b.found st.fs st.disk preferredGroup (st.mem 0))
  rw [← hLeads.fs] at hGeo
  cases hFound : b.found st.fs st.disk preferredGroup (st.mem 0) with
  | none =>
    rw [hFound] at hTake
    exact Run.bind_of_none hTake
  | some x =>
    rw [hFound] at hTake
    rw [Run.bind_of_some hTake]
    dsimp only
    rw [Run.bind_of_some (Run.get_run st'), asInt_eq, hGeo]
    rfl

theorem ext4AllocBlock_eq (hIo : ∀ n, st.io n = true) (preferredGroup : Nat) :
    ∃ st', ext4AllocBlock preferredGroup st =
        ((blockBitmap.found st.fs st.disk preferredGroup (st.mem 0)).bind fun x =>
          asNumber (st.fs.firstDataBlock + x.1 * st.fs.blocksPerGroup + x.2), st') ∧
      Leads st.asked st' (blockBitmap.searched st.fs st.disk
        (blockBitmap.found st.fs st.disk preferredGroup (st.mem 0))) :=
  alloc_eq (Or.inl rfl) hIo preferredGroup fun geo g i => geo.firstDataBlock + g * geo.blocksPerGroup + i

theorem ext4AllocInode_eq (hIo : ∀ n, st.io n = true) (preferredGroup : Nat) :
    ∃ st', ext4AllocInode preferredGroup st =
        ((inodeBitmap.found st.fs st.disk preferredGroup (st.mem 0)).bind fun x =>
          asNumber (x.1 * st.fs.inodesPerGroup + x.2 + 1), st') ∧
      Leads st.asked st' (inodeBitmap.searched st.fs st.disk
        (inodeBitmap.found st.fs st.disk preferredGroup (st.mem 0))) :=
  alloc_eq (Or.inr rfl) hIo preferredGroup fun geo g i => g * geo.inodesPerGroup + i + 1

def freedBlock (fs : Ext4Fs) (disk : Nat → Mem) (block : Nat) (mem : Bool) : Ext4Fs × (Nat → Mem) :=
  if mem = true ∧ fs.firstDataBlock ≤ block ∧
      (block - fs.firstDataBlock) / fs.blocksPerGroup % 2 ^ 32 < fs.groupCount then
    blockBitmap.released fs disk ((block - fs.firstDataBlock) / fs.blocksPerGroup % 2 ^ 32)
      ((block - fs.firstDataBlock) % fs.blocksPerGroup)
  else (fs, disk)

def freedInode (fs : Ext4Fs) (disk : Nat → Mem) (ino : Nat) (mem : Bool) : Ext4Fs × (Nat → Mem) :=
  if mem = true ∧ ino ≠ 0 ∧ (ino - 1) / fs.inodesPerGroup < fs.groupCount then
    inodeBitmap.released fs disk ((ino - 1) / fs.inodesPerGroup) ((ino - 1) % fs.inodesPerGroup)
  else (fs, disk)

theorem release_image {b : Bitmap} (hIo : ∀ n, st.io n = true) (group index : Nat) :
    (∀ n, (b.release group index st).2.io n = true) ∧ (b.release group index st).2.image =
      Image.of (if st.mem 0 = true then b.released st.fs st.disk group index else (st.fs, st.disk)) := by
  obtain ⟨st', hRun, hLeads⟩ := b.release_eq hIo group index
  rw [hRun]
  exact ⟨hLeads.io, hLeads.image⟩

theorem ext4FreeBlock_image (hIo : ∀ n, st.io n = true) (block : Nat) :
    (∀ n, (ext4FreeBlock block st).2.io n = true) ∧
      (ext4FreeBlock block st).2.image = Image.of (freedBlock st.fs st.disk block (st.mem 0)) := by
  unfold ext4FreeBlock freedBlock
  rw [Run.bind_of_some (Run.get_run st), Run.ite_run]
  by_cases hLow : block < st.fs.firstDataBlock
  · rw [if_pos hLow, if_neg fun h => absurd h.2.1 (Nat.not_le.mpr hLow)]
    exact ⟨hIo, rfl⟩
  · rw [if_neg hLow]
    rw [Run.ite_run]
    by_cases hOut : (block - st.fs.firstDataBlock) / st.fs.blocksPerGroup % 2 ^ 32 ≥ st.fs.groupCount
    · rw [if_pos hOut, if_neg fun h => absurd h.2.2 (Nat.not_lt.mpr hOut)]
      exact ⟨hIo, rfl⟩
    · obtain ⟨hServes, hImage⟩ := release_image (b := blockBitmap) hIo
        ((block - st.fs.firstDataBlock) / st.fs.blocksPerGroup % 2 ^ 32)
        ((block - st.fs.firstDataBlock) % st.fs.blocksPerGroup)
      rw [if_neg hOut]
      refine ⟨hServes, hImage.trans ?_⟩
      simp only [Nat.le_of_not_lt hLow, Nat.lt_of_not_le hOut, and_true]

theorem ext4FreeInode_image (hIo : ∀ n, st.io n = true) (ino : Nat) :
    (∀ n, (ext4FreeInode ino st).2.io n = true) ∧
      (ext4FreeInode ino st).2.image = Image.of (freedInode st.fs st.disk ino (st.mem 0)) := by
  unfold ext4FreeInode freedInode
  rw [Run.bind_of_some (Run.get_run st), Run.ite_run]
  by_cases hZero : ino = 0
  · rw [if_pos hZero, if_neg fun h => h.2.1 hZero]
    exact ⟨hIo, rfl⟩
  · rw [if_neg hZero]
    rw [Run.ite_run]
    by_cases hOut : (ino - 1) / st.fs.inodesPerGroup ≥ st.fs.groupCount
    · rw [if_pos hOut, if_neg fun h => absurd h.2.2 (Nat.not_lt.mpr hOut)]
      exact ⟨hIo, rfl⟩
    · obtain ⟨hServes, hImage⟩ := release_image (b := inodeBitmap) hIo ((ino - 1) / st.fs.inodesPerGroup)
        ((ino - 1) % st.fs.inodesPerGroup)
      rw [if_neg hOut]
      refine ⟨hServes, hImage.trans ?_⟩
      simp only [hZero, Nat.lt_of_not_le hOut, ne_eq, not_false_iff, and_true]

end Calls

/-! ### One event -/

section Steps

variable {im : Image} {a : Account} {g i : Nat}

theorem Image.counted_iff : im.Counted ↔ ∀ a : Account, a.Known → a.Right im.fs im.disk := by
  constructor
  · rintro ⟨hBlocks, hInodes⟩ a (rfl | rfl)
    · exact hBlocks
    · exact hInodes
  · intro h
    exact ⟨h _ (Or.inl rfl), h _ (Or.inr rfl)⟩

def Image.Keeps (im im' : Image) : Prop := im'.fs.geometry = im.fs.geometry ∧ im'.Counted

theorem Image.Counted.taken (h : im.Counted) (hGeo : im.fs.geometry.Regular) (ha : a.Known)
    (hg : g < im.fs.groupCount) (hi : i < a.map.limit im.fs)
    (hClear : ¬ BitIsSet (im.disk (a.map.block im.fs g)) i) (hLo : a.groupLo im.fs g ≠ 0)
    (hSuper : a.superLo im.fs ≠ 0) : im.Keeps (Image.of (a.map.taken im.fs im.disk g i)) := by
  refine ⟨geometry_count ha.map .., Image.counted_iff.mpr fun a' ha' => ?_⟩
  have hRight := Image.counted_iff.mp h
  by_cases hSame : a' = a
  · subst hSame
    exact (hRight a' ha).taken hGeo ha hg hi hClear hLo hSuper
  · exact (hRight a' ha').other hGeo ha ha' hSame hg _

theorem Image.Counted.released (h : im.Counted) (hGeo : im.fs.geometry.Regular) (ha : a.Known)
    (hg : g < im.fs.groupCount) (hi : i < a.map.limit im.fs) (hCarry : a.NoCarry im.fs im.disk g i) :
    im.Keeps (Image.of (a.map.released im.fs im.disk g i)) := by
  refine ⟨geometry_count ha.map .., Image.counted_iff.mpr fun a' ha' => ?_⟩
  have hRight := Image.counted_iff.mp h
  by_cases hSame : a' = a
  · subst hSame
    exact (hRight a' ha).released hGeo ha hg hi hCarry
  · exact (hRight a' ha').other hGeo ha ha' hSame hg _

theorem Image.Counted.write (h : im.Counted) {block : Nat} {buf : Mem}
    (hOther : ∀ g < im.fs.groupCount,
      ext4GetBlockBitmap im.fs g ≠ block ∧ ext4GetInodeBitmap im.fs g ≠ block) :
    im.Keeps ⟨im.fs, Function.update im.disk block buf⟩ := by
  refine ⟨rfl, Image.counted_iff.mpr fun a ha => ?_⟩
  have hRight := Image.counted_iff.mp h a ha
  have hZeros : ∀ g < im.fs.groupCount,
      a.zeros im.fs (Function.update im.disk block buf) g = a.zeros im.fs im.disk g := by
    intro g hg
    have hNe : a.map.block im.fs g ≠ block := by
      rcases ha with rfl | rfl
      · exact (hOther g hg).1
      · exact (hOther g hg).2
    rw [Account.zeros, Function.update_of_ne hNe, Account.zeros]
  refine ⟨fun g hg => ?_, ?_⟩
  · rw [hZeros g hg]
    exact hRight.groups g hg
  · rw [hRight.total]
    exact Finset.sum_congr rfl fun g hg => (hZeros g (Finset.mem_range.mp hg)).symm

theorem Image.Counted.searched (h : im.Counted) (hGeo : im.fs.geometry.Regular) (ha : a.Known) {p : Nat}
    {mem : Bool} (hBorrow : a.NoBorrow im.fs p mem) :
    im.Keeps (Image.of (a.map.searched im.fs im.disk (a.map.found im.fs im.disk p mem))) ∧
      (a.map.found im.fs im.disk p mem = none → ∀ g < im.fs.groupCount, a.zeros im.fs im.disk g = 0) ∧
      ∀ x, a.map.found im.fs im.disk p mem = some x → x.1 < im.fs.groupCount ∧ x.2 < a.map.limit im.fs := by
  rcases Account.found_cases (Image.counted_iff.mp h a ha) hGeo ha hBorrow with
    ⟨hNone, hFull⟩ | ⟨g, i, hFound, hg, hi, hClear, hLo, hSuper⟩
  · rw [hNone]
    exact ⟨⟨rfl, h⟩, fun _ => hFull, nofun⟩
  · rw [hFound]
    refine ⟨h.taken hGeo ha hg hi hClear hLo hSuper, nofun, ?_⟩
    rintro x ⟨⟩
    exact ⟨hg, hi⟩

theorem number_lt {k size first : Nat} (hg : g < k) (hi : i < size) :
    first + g * size + i < first + k * size := by
  have hMul := Nat.mul_le_mul_right size hg
  rw [Nat.succ_mul] at hMul
  omega

theorem asNumber_ne_none {n : Nat} (h : n < 2 ^ 31) : asNumber n ≠ none := by
  rw [asNumber, if_pos (by omega)]
  exact nofun

theorem Event.step (hGeo : im.fs.geometry.Regular) (h : im.Counted) (e : Event) (hClean : e.Clean im) :
    im.Keeps (e.next im) ∧ (e.Refused im → e.Full im) := by
  have hIo : ∀ mem n, (im.volume mem).io n = true := fun _ _ => rfl
  cases e with
  | allocBlock p mem =>
    obtain ⟨st', hRun, hLeads⟩ := ext4AllocBlock_eq (hIo mem) p
    obtain ⟨hKeeps, hFull, hIn⟩ := h.searched hGeo (Or.inl rfl) hClean
    simp only [next, Refused, Full, hRun, hLeads.image]
    refine ⟨hKeeps, fun hNone => hFull ?_⟩
    by_contra hSome
    obtain ⟨x, hx⟩ := Option.ne_none_iff_exists'.mp hSome
    obtain ⟨hg, hi⟩ := hIn x hx
    have hFound : blockBitmap.found (im.volume mem).fs (im.volume mem).disk p ((im.volume mem).mem 0) =
      some x := hx
    rw [hFound, Option.bind_some] at hNone
    exact asNumber_ne_none ((number_lt hg hi).trans_le hGeo.blocks_le) hNone
  | allocInode p mem =>
    obtain ⟨st', hRun, hLeads⟩ := ext4AllocInode_eq (hIo mem) p
    obtain ⟨hKeeps, hFull, hIn⟩ := h.searched hGeo (Or.inr rfl) hClean
    simp only [next, Refused, Full, hRun, hLeads.image]
    refine ⟨hKeeps, fun hNone => hFull ?_⟩
    by_contra hSome
    obtain ⟨x, hx⟩ := Option.ne_none_iff_exists'.mp hSome
    obtain ⟨hg, hi⟩ := hIn x hx
    have hFound : inodeBitmap.found (im.volume mem).fs (im.volume mem).disk p ((im.volume mem).mem 0) =
      some x := hx
    rw [hFound, Option.bind_some] at hNone
    have hLt : 0 + x.1 * im.fs.inodesPerGroup + x.2 < 0 + im.fs.groupCount * im.fs.inodesPerGroup :=
      number_lt hg hi
    have hMax : im.fs.groupCount * im.fs.inodesPerGroup < 2 ^ 31 := hGeo.inodes_lt
    have hNumber : x.1 * im.fs.inodesPerGroup + x.2 + 1 < 2 ^ 31 := by omega
    exact asNumber_ne_none hNumber hNone
  | freeBlock block mem =>
    refine ⟨?_, False.elim⟩
    rw [next, (ext4FreeBlock_image (hIo mem) block).2, freedBlock]
    split
    case isTrue hFrees =>
      obtain ⟨hMem, hFirst, hGroup⟩ := hFrees
      exact h.released (a := blockAccount) hGeo (Or.inl rfl) hGroup (Nat.mod_lt _ hGeo.group_pos)
        (hClean hMem hFirst hGroup)
    case isFalse hNothing => exact ⟨rfl, h⟩
  | freeInode ino mem =>
    refine ⟨?_, False.elim⟩
    rw [next, (ext4FreeInode_image (hIo mem) ino).2, freedInode]
    split
    case isTrue hFrees =>
      obtain ⟨hMem, hPos, hGroup⟩ := hFrees
      exact h.released (a := inodeAccount) hGeo (Or.inr rfl) hGroup (Nat.mod_lt _ hGeo.inodes_pos)
        (hClean hMem hPos hGroup)
    case isFalse hNothing => exact ⟨rfl, h⟩
  | write block buf => exact ⟨h.write hClean, False.elim⟩

end Steps

/-- In a run of clean events the counts are right in every state, and every allocation that fails
finds no clear bit in any group. -/
theorem ext4_free_counts {im : Image} (hGeo : im.fs.geometry.Regular) (hCounted : im.Counted)
    {events : List Event} (hClean : im.CleanRun events) (n : Nat) :
    (im.through (events.take n)).Counted ∧ ∀ e, events[n]? = some e →
      e.Refused (im.through (events.take n)) → e.Full (im.through (events.take n)) := by
  induction events generalizing im n with
  | nil =>
    rw [List.take_nil]
    exact ⟨hCounted, nofun⟩
  | cons e events ih =>
    obtain ⟨⟨hSame, hNext⟩, hRefused⟩ := Event.step hGeo hCounted e hClean.1
    cases n with
    | zero =>
      refine ⟨hCounted, fun e' he' => ?_⟩
      cases he'
      exact hRefused
    | succ n => exact ih (hSame ▸ hGeo) hNext hClean.2 n

theorem Image.through_append (im : Image) (events events' : List Event) :
    im.through (events ++ events') = (im.through events).through events' := List.foldl_append

/-! ### The calls of the driver are runs -/

section Traces

variable {α β : Type}

/-- Whatever `m` does to the volume on a device that serves it is a run of events. -/
def Traced (m : Ext4M α) : Prop :=
  ∀ st, (∀ n, st.io n = true) →
    (∀ n, (m st).2.io n = true) ∧ ∃ events, (m st).2.image = st.image.through events

theorem Traced.silent {m : Ext4M α}
    (h : ∀ st, (∀ n, st.io n = true) → (∀ n, (m st).2.io n = true) ∧ (m st).2.image = st.image) :
    Traced m :=
  fun st hIo => ⟨(h st hIo).1, [], (h st hIo).2⟩

theorem Traced.single {m : Ext4M α} (e : Volume → Event)
    (h : ∀ st, (∀ n, st.io n = true) →
      (∀ n, (m st).2.io n = true) ∧ (m st).2.image = (e st).next st.image) : Traced m :=
  fun st hIo => ⟨(h st hIo).1, [e st], (h st hIo).2⟩

theorem Traced.pure (a : α) : Traced (pure a : Ext4M α) := Traced.silent fun _ hIo => ⟨hIo, rfl⟩

theorem Traced.fail : Traced (Run.fail : Ext4M α) := Traced.silent fun _ hIo => ⟨hIo, rfl⟩

theorem Traced.get : Traced (Run.get : Ext4M Volume) := Traced.silent fun _ hIo => ⟨hIo, rfl⟩

theorem Traced.bind {m : Ext4M α} {f : α → Ext4M β} (hm : Traced m) (hf : ∀ a, Traced (f a)) :
    Traced (m >>= f) := by
  intro st hIo
  obtain ⟨hServes, events, hImage⟩ := hm st hIo
  rcases hRun : m st with ⟨result, st'⟩
  rw [hRun] at hServes hImage
  cases result with
  | none =>
    rw [Run.bind_of_none hRun]
    exact ⟨hServes, events, hImage⟩
  | some a =>
    obtain ⟨hServes', events', hImage'⟩ := hf a st' hServes
    rw [Run.bind_of_some hRun]
    refine ⟨hServes', events ++ events', ?_⟩
    rw [hImage', hImage, Image.through_append]

theorem Traced.attempt {m : Ext4M α} (hm : Traced m) : Traced m.attempt := hm

theorem Traced.kmalloc : Traced kmalloc := Traced.silent fun _ hIo => ⟨hIo, rfl⟩

theorem Traced.kmallocZeros : Traced kmallocZeros := Traced.silent fun _ hIo => ⟨hIo, rfl⟩

theorem Traced.read (block : Nat) : Traced (ext4ReadBlock block) :=
  Traced.silent fun _ hIo => ⟨fun n => hIo (n + 1), rfl⟩

theorem Traced.write (block : Nat) (buf : Mem) : Traced (ext4WriteBlockRaw block buf) := by
  refine Traced.single (fun _ => .write block buf) fun st hIo => ?_
  rw [ext4WriteBlockRaw_eq hIo]
  exact ⟨fun n => hIo (n + 1), rfl⟩

theorem volume_io (st : Volume) (n : Nat) : (st.image.volume (st.mem 0)).io n = true := rfl

theorem Traced.allocBlock (preferredGroup : Nat) : Traced (ext4AllocBlock preferredGroup) := by
  refine Traced.single (fun st => .allocBlock preferredGroup (st.mem 0)) fun st hIo => ?_
  obtain ⟨st', hRun, hLeads⟩ := ext4AllocBlock_eq hIo preferredGroup
  obtain ⟨st'', hRun', hLeads'⟩ := ext4AllocBlock_eq (volume_io st) preferredGroup
  rw [hRun, Event.next, hRun', hLeads.image, hLeads'.image]
  exact ⟨hLeads.io, rfl⟩

theorem Traced.allocInode (preferredGroup : Nat) : Traced (ext4AllocInode preferredGroup) := by
  refine Traced.single (fun st => .allocInode preferredGroup (st.mem 0)) fun st hIo => ?_
  obtain ⟨st', hRun, hLeads⟩ := ext4AllocInode_eq hIo preferredGroup
  obtain ⟨st'', hRun', hLeads'⟩ := ext4AllocInode_eq (volume_io st) preferredGroup
  rw [hRun, Event.next, hRun', hLeads.image, hLeads'.image]
  exact ⟨hLeads.io, rfl⟩

theorem Traced.freeBlock (block : Nat) : Traced (ext4FreeBlock block) := by
  refine Traced.single (fun st => .freeBlock block (st.mem 0)) fun st hIo => ?_
  obtain ⟨hServes, hImage⟩ := ext4FreeBlock_image hIo block
  exact ⟨hServes, hImage.trans (ext4FreeBlock_image (volume_io st) block).2.symm⟩

theorem Traced.freeInode (ino : Nat) : Traced (ext4FreeInode ino) := by
  refine Traced.single (fun st => .freeInode ino (st.mem 0)) fun st hIo => ?_
  obtain ⟨hServes, hImage⟩ := ext4FreeInode_image hIo ino
  exact ⟨hServes, hImage.trans (ext4FreeInode_image (volume_io st) ino).2.symm⟩

theorem Traced.ite {c : Prop} [Decidable c] {m m' : Ext4M α} (hm : Traced m) (hm' : Traced m') :
    Traced (if c then m else m') := by
  split
  · exact hm
  · exact hm'

theorem Traced.readInode (ino : Nat) : Traced (ext4ReadInode ino) := by
  refine Traced.get.bind fun st => .ite .fail (.ite .fail ?_)
  exact Traced.kmalloc.bind fun _ => (Traced.read _).bind fun _ => .pure _

theorem Traced.writeInode (ino : Nat) (inode : Mem) : Traced (ext4WriteInode ino inode) := by
  refine Traced.get.bind fun st => .ite .fail (.ite .fail ?_)
  exact Traced.kmalloc.bind fun _ => (Traced.read _).bind fun _ => .write _ _

theorem Traced.readPointer (block index : Nat) : Traced (readPointer block index) := by
  refine (Traced.attempt (Traced.kmalloc.bind fun _ => .read _)).bind fun buf => ?_
  cases buf with
  | none => exact .pure _
  | some buf => exact .pure _

theorem Traced.getFileBlock (inode : Mem) (fileBlock : Nat) : Traced (ext4GetFileBlock inode fileBlock) := by
  refine Traced.get.bind fun st => .ite (.pure _) (.ite (.ite (.pure _) (.readPointer _ _)) ?_)
  refine .ite (.ite (.pure _) ?_) (.pure _)
  exact (Traced.readPointer _ _).bind fun ind => .ite (.pure _) (.readPointer _ _)

theorem Traced.ensureIndirect (inode : Mem) (group : Nat) : Traced (ensureIndirect inode group) := by
  refine .ite (.pure _) ((Traced.attempt (.allocBlock _)).bind fun newBlock => ?_)
  cases newBlock with
  | none => exact .pure _
  | some newBlock =>
    exact (Traced.attempt (Traced.kmallocZeros.bind fun _ => .write _ _)).bind fun _ => .pure _

theorem Traced.setFileBlock (inode : Mem) (fileBlock diskBlock ino : Nat) :
    Traced (ext4SetFileBlock inode fileBlock diskBlock ino) := by
  refine Traced.get.bind fun st => .ite (.pure _) (.ite ?_ (.pure _))
  refine (Traced.ensureIndirect _ _).bind fun found => ?_
  cases found with
  | none => exact .pure _
  | some inode =>
    exact (Traced.attempt (Traced.kmalloc.bind fun _ => (Traced.read _).bind fun _ => .write _ _)).bind
      fun _ => .pure _

theorem Traced.addInBlocks (dirInode : Mem) (e : DirEntry) (blocks : List Nat) :
    Traced (addInBlocks dirInode e blocks) := by
  induction blocks with
  | nil => exact .pure _
  | cons b rest ih =>
    refine Traced.get.bind fun st => (Traced.getFileBlock _ _).bind fun diskBlock => .ite ih ?_
    refine (Traced.attempt (.read _)).bind fun buf => ?_
    cases buf with
    | none => exact ih
    | some buf =>
      dsimp only
      split
      · exact ih
      · exact (Traced.write _ _).bind fun _ => .pure _

theorem Traced.addInNewBlock (dirIno : Nat) (dirInode : Mem) (e : DirEntry) (numBlocks : Nat) :
    Traced (addInNewBlock dirIno dirInode e numBlocks) := by
  refine Traced.get.bind fun st => (Traced.allocBlock _).bind fun newBlock => ?_
  have hDrop : Traced (do
      let _ ← (ext4FreeBlock newBlock).attempt
      Run.fail : Ext4M Unit) := (Traced.attempt (.freeBlock _)).bind fun _ => .fail
  refine (Traced.attempt (.write _ _)).bind fun written => ?_
  cases written with
  | none => exact hDrop
  | some _ =>
    refine (Traced.setFileBlock _ _ _ _).bind fun ⟨stored, dirInode⟩ => ?_
    exact .ite (.writeInode _ _) hDrop

theorem Traced.addDirEntry (dirIno : Nat) (e : DirEntry) : Traced (ext4AddDirEntry dirIno e) := by
  refine (Traced.readInode _).bind fun dirInode => Traced.kmalloc.bind fun _ => Traced.get.bind fun st => ?_
  exact (Traced.addInBlocks _ _ _).bind fun added => .ite (.pure _) (.addInNewBlock _ _ _ _)

theorem Traced.writeTarget (ino : Nat) (inode : Mem) (fileBlock : Nat) :
    Traced (writeTarget ino inode fileBlock) := by
  refine Traced.get.bind fun st => (Traced.getFileBlock _ _).bind fun diskBlock => .ite ?_ ?_
  · refine (Traced.attempt (.allocBlock _)).bind fun newBlock => ?_
    cases newBlock with
    | none => exact .pure _
    | some newBlock =>
      refine (Traced.setFileBlock _ _ _ _).bind fun ⟨stored, inode⟩ => ?_
      exact .ite (.pure _) ((Traced.attempt (.freeBlock _)).bind fun _ => .pure _)
  · refine (Traced.attempt (.read _)).bind fun buf => ?_
    cases buf with
    | none => exact .pure _
    | some buf => exact .pure _

theorem Traced.writeLoop (ino : Nat) (data : List UInt8) (offset fuel : Nat) (inode : Mem) (written : Nat) :
    Traced (writeLoop ino data offset fuel inode written) := by
  induction fuel generalizing inode written with
  | zero => exact .pure _
  | succ fuel ih =>
    refine .ite (Traced.get.bind fun st => (Traced.writeTarget _ _ _).bind fun ⟨inode, target⟩ => ?_) (.pure _)
    cases target with
    | none => exact .pure _
    | some target =>
      refine (Traced.attempt (.write _ _)).bind fun done => ?_
      cases done with
      | none => exact .pure _
      | some _ => exact ih _ _

theorem Traced.writeFile (ino : Nat) (data : List UInt8) (offset : Nat) :
    Traced (ext4WriteFile ino data offset) := by
  refine (Traced.readInode _).bind fun inode => Traced.kmalloc.bind fun _ => ?_
  refine (Traced.writeLoop _ _ _ _ _ _).bind fun ⟨inode, written⟩ => ?_
  exact (Traced.attempt (.writeInode _ _)).bind fun _ => .pure _

theorem Traced.createFile (parentIno : Nat) (name : List UInt8) (mode : Nat) :
    Traced (ext4CreateFile parentIno name mode) := by
  refine Traced.get.bind fun st => (Traced.allocInode _).bind fun newIno => ?_
  refine (Traced.attempt ((Traced.writeInode _ _).bind fun _ => .addDirEntry _ _)).bind fun made => ?_
  cases made with
  | none => exact (Traced.attempt (.freeInode _)).bind fun _ => .fail
  | some _ =>
    refine .ite ?_ (.pure _)
    refine (Traced.attempt (.addDirEntry _ _)).bind fun _ => (Traced.attempt (.addDirEntry _ _)).bind fun _ => ?_
    exact (Traced.attempt ((Traced.readInode _).bind fun _ => .writeInode _ _)).bind fun _ => .pure _

theorem Traced.freeFileBlocks (inode : Mem) (blocks : List Nat) : Traced (freeFileBlocks inode blocks) := by
  induction blocks with
  | nil => exact .pure _
  | cons b rest ih =>
    refine (Traced.getFileBlock _ _).bind fun diskBlock => .ite ?_ ih
    exact (Traced.attempt (.freeBlock _)).bind fun _ => ih

theorem Traced.truncate (ino size : Nat) : Traced (ext4VfsTruncate ino size) := by
  refine (Traced.readInode _).bind fun inode => Traced.get.bind fun st => ?_
  exact .ite ((Traced.freeFileBlocks _ _).bind fun _ => .writeInode _ _) (.writeInode _ _)

theorem Call.traced (c : Call) : Traced c.run := by
  cases c with
  | create parentIno name mode => exact (Traced.createFile _ _ _).bind fun _ => .pure _
  | mkdir parentIno name mode => exact (Traced.createFile _ _ _).bind fun _ => .pure _
  | write ino data offset => exact (Traced.writeFile _ _ _).bind fun _ => .pure _
  | truncate ino size => exact .truncate ino size

end Traces

theorem Image.after_eq_through (im : Image) (steps : List Step) :
    ∃ events, im.after steps = im.through events := by
  induction steps generalizing im with
  | nil => exact ⟨[], rfl⟩
  | cons s steps ih =>
    obtain ⟨-, events, hImage⟩ := s.call.traced ⟨im.fs, im.disk, s.mem, s.zeros, fun _ => true⟩ fun _ => rfl
    obtain ⟨events', hRest⟩ := ih (im.next s)
    have hNext : im.next s = im.through events := hImage
    refine ⟨events ++ events', ?_⟩
    rw [Image.through_append, ← hNext]
    exact hRest

/-! ### On the small image -/

theorem smallImage_regular : smallImage.fs.geometry.Regular := by
  constructor <;> decide +kernel

theorem smallImage_counted : smallImage.Counted := by
  refine ⟨⟨?_, ?_⟩, ⟨?_, ?_⟩⟩ <;> decide +kernel

def smallEvents : List Event :=
  [.allocBlock 0 true, .allocInode 0 true, .write 7 zeroBlock, .freeBlock 7 true, .allocBlock 0 true]

theorem smallEvents_clean : smallImage.CleanRun smallEvents := by
  have hTake : ∀ {a : Account} {fs : Ext4Fs}, 0 + fs.groupCount ≤ 2 ^ 32 → a.nextGroup fs 0 = some 0 →
      a.groupLo fs 0 ≠ 0 → a.superLo fs ≠ 0 → a.NoBorrow fs 0 true := by
    intro a fs hp hNext hLo hSuper
    refine ⟨hp, fun g hg => ?_⟩
    obtain rfl : 0 = g := Option.some.inj (hNext.symm.trans hg)
    exact ⟨rfl, hLo, hSuper⟩
  refine ⟨?_, ?_, ?_, ?_, ?_, trivial⟩
  · exact hTake (by decide +kernel) (by decide +kernel) (by decide +kernel) (by decide +kernel)
  · exact hTake (by decide +kernel) (by decide +kernel) (by decide +kernel) (by decide +kernel)
  · show ∀ g < _, _
    decide +kernel
  · intro _ _ _
    show BitIsSet _ _ ∧ _
    decide +kernel
  · exact hTake (by decide +kernel) (by decide +kernel) (by decide +kernel) (by decide +kernel)

theorem ext4_free_counts_smallEvents :
    smallImage.fs.geometry.Regular ∧ smallImage.Counted ∧ smallImage.CleanRun smallEvents ∧
      ∀ n, (smallImage.through (smallEvents.take n)).Counted ∧ ∀ e, smallEvents[n]? = some e →
        e.Refused (smallImage.through (smallEvents.take n)) →
        e.Full (smallImage.through (smallEvents.take n)) :=
  ⟨smallImage_regular, smallImage_counted, smallEvents_clean,
    ext4_free_counts smallImage_regular smallImage_counted smallEvents_clean⟩

theorem truncate_counts_block_twice :
    let steps : List Step := [⟨.truncate 1 0, fun _ => true, fun _ => true⟩,
      ⟨.truncate 1 1, fun _ => true, fun _ => true⟩, ⟨.truncate 1 0, fun _ => true, fun _ => true⟩]
    smallImage.Consistent ∧ smallImage.fs.geometry.Regular ∧ smallImage.Counted ∧
      blockBitmap.freeCount (smallImage.after steps).fs 0 = 12 ∧
      blockAccount.zeros (smallImage.after steps).fs (smallImage.after steps).disk 0 = 11 ∧
      ¬ (smallImage.after steps).Counted := by
  intro steps
  have hCount : blockBitmap.freeCount (smallImage.after steps).fs 0 = 12 := by decide +kernel
  have hZeros : blockAccount.zeros (smallImage.after steps).fs (smallImage.after steps).disk 0 = 11 := by
    decide +kernel
  refine ⟨smallImage_consistent, smallImage_regular, smallImage_counted, hCount, hZeros, fun hCounted => ?_⟩
  have hGroup := hCounted.1.groups 0 (by decide +kernel)
  rw [hZeros] at hGroup
  cases hCount.symm.trans hGroup

end UnixOS.Fs.Ext4
