import UnixOS.Fs.Ext4Ownership

/-! # The calls of the driver on a consistent volume

Each call reads the inode it works on, changes a copy and writes it back at the end. In between the
references are exclusive with the slots of the copy.
-/

namespace UnixOS.Fs.Ext4

open ByteMemory ByteBitmap Fallible

variable {geo : Geometry} {base : Nat → Nat → Nat} {E : Volume → Prop}

def Settled (geo : Geometry) (fs : Ext4Fs) (disk : Nat → Mem) : Prop :=
  ∃ base, Good geo base base [] fs disk

theorem settled_iff {fs : Ext4Fs} {disk : Nat → Mem} :
    Settled geo fs disk ↔ fs.geometry = geo ∧ geo.World disk (geo.inodeSlots disk) := by
  constructor
  · rintro ⟨base, hGood⟩
    exact ⟨hGood.geometry, hGood.world.congr fun i k hi _ => hGood.base i k hi⟩
  · rintro ⟨hGeo, hWorld⟩
    exact ⟨geo.inodeSlots disk, hGeo, hWorld, fun _ _ _ => rfl, nofun⟩

/-! ### Inodes -/

section Inodes

variable {slots : Nat → Nat → Nat} {taken : List Nat} {ino : Nat} {inode : Mem} {sure : Prop}
  {Q Q' : Assertion}

def Ext4Fs.inodeOn (fs : Ext4Fs) (disk : Nat → Mem) (ino : Nat) : Mem := fun i =>
  disk (fs.inodeBlock ino) (fs.inodeOffset ino + i)

theorem ext4ReadInode_served (ino : Nat) :
    Triple (Served sure Q) (ext4ReadInode ino)
      (fun inode => Served sure fun fs disk => Q fs disk ∧ fs.geometry.HasInode ino ∧ inode = fs.inodeOn disk ino)
      (Served sure Q) := by
  unfold ext4ReadInode
  refine get_spec fun st _ => ?_
  split
  case isTrue hZero => exact fail_spec fun _ _ => And.left
  case isFalse hPos =>
    split
    case isTrue hOut => exact fail_spec fun _ _ => And.left
    case isFalse hIn =>
      refine Triple.bind (kmalloc_spec fun _ _ => And.left) fun _ => ?_
      refine Triple.bind (Triple.fails (ext4ReadBlock_served _) fun _ _ => And.left) fun buf => ?_
      refine Triple.pure fun s hs => hs.imp ?_
      rintro ⟨⟨hQ, hfs, -⟩, rfl⟩
      rw [hfs]
      exact ⟨hfs ▸ hQ, ⟨hPos, Nat.lt_of_not_le hIn⟩, rfl⟩

theorem ext4WriteInode_served (ino : Nat) (inode : Mem)
    (h : ∀ fs disk, Q fs disk → fs.geometry.HasInode ino → Q' fs (Function.update disk (fs.inodeBlock ino)
      (fill (disk (fs.inodeBlock ino)) (fs.inodeOffset ino) inodeBytes inode))) :
    Triple (Served sure Q) (ext4WriteInode ino inode) (fun _ => Served sure Q') (Served sure Q) := by
  unfold ext4WriteInode
  refine get_spec fun st _ => ?_
  split
  case isTrue hZero => exact fail_spec fun _ _ => And.left
  case isFalse hPos =>
    split
    case isTrue hOut => exact fail_spec fun _ _ => And.left
    case isFalse hIn =>
      refine Triple.bind (kmalloc_spec fun _ _ => And.left) fun _ => ?_
      refine Triple.bind (Triple.fails (ext4ReadBlock_served _) fun _ _ => And.left) fun buf => ?_
      refine Triple.fails (ext4WriteBlockRaw_served ?_) fun _ _ hQ => hQ.2.1.1
      rintro fs disk ⟨⟨hQ, rfl, -⟩, rfl⟩
      exact h _ disk hQ ⟨hPos, Nat.lt_of_not_le hIn⟩

theorem Good.read {fs : Ext4Fs} {disk : Nat → Mem} (h : Good geo base slots taken fs disk)
    (hIno : geo.HasInode ino) (k : Nat) : iBlock (fs.inodeOn disk ino) k = base ino k := by
  obtain rfl := h.geometry
  rw [← h.base ino k hIno]
  exact load_shift (disk (fs.inodeBlock ino)) (fs.inodeOffset ino) 4 (40 + 4 * k)

theorem ext4ReadInode_spec (ino : Nat) :
    Triple (Quiet (Good geo base base [])) (ext4ReadInode ino)
      (fun inode => Quiet fun fs disk =>
        geo.HasInode ino ∧ Extends base ino inode ∧
          Good geo base (withInode base ino inode) [] fs disk)
      (Quiet (Settled geo)) := by
  refine (ext4ReadInode_served ino).conseq (fun _ => id) ?_ fun _ hs => hs.imp fun h => ⟨base, h⟩
  intro inode s hs
  refine hs.imp ?_
  rintro ⟨hGood, hIno, rfl⟩
  rw [hGood.geometry] at hIno
  refine ⟨hIno, fun k _ => Or.inl (hGood.read hIno k).symm, hGood.congr ?_⟩
  intro i k hi hk
  unfold withInode
  split
  case isFalse hOther => rfl
  case isTrue hSame => rw [hSame, hGood.read hIno]

theorem ext4WriteInode_spec (base : Nat → Nat → Nat) (ino : Nat) (inode : Mem) :
    Triple (Quiet fun fs disk => Good geo base base [] fs disk ∧
        Good geo base (withInode base ino inode) [] fs disk)
      (ext4WriteInode ino inode) (fun _ => Quiet (Settled geo)) (Quiet (Settled geo)) := by
  refine Triple.fails (ext4WriteInode_served ino inode ?_) fun _ _ h => ⟨base, h.1⟩
  rintro fs disk ⟨-, hGood⟩ hIno
  obtain rfl := hGood.geometry
  refine settled_iff.mpr ⟨hGood.geometry, ?_⟩
  apply Geometry.World.writeInode hIno
  apply hGood.world.congr
  intro i k hi hk
  unfold withInode
  split
  case isTrue hSame => rfl
  case isFalse hOther => exact hGood.base i k hi

theorem Good.congrInode {inode' : Mem} {fs : Ext4Fs} {disk : Nat → Mem}
    (h : Good geo base (withInode base ino inode) taken fs disk)
    (hSlots : ∀ k < 15, iBlock inode' k = iBlock inode k) :
    Good geo base (withInode base ino inode') taken fs disk := by
  apply h.congr
  intro i k _ hk
  unfold withInode
  rw [hSlots k hk]

theorem ext4WriteInode_slots {inode' : Mem} (hSlots : ∀ k < 15, iBlock inode' k = iBlock inode k) :
    Triple (Quiet fun fs disk => Good geo base base [] fs disk ∧
        Good geo base (withInode base ino inode) [] fs disk)
      (ext4WriteInode ino inode') (fun _ => Quiet (Settled geo)) (Quiet (Settled geo)) :=
  Triple.weaken (ext4WriteInode_spec base ino inode') fun _ _ h => ⟨h.1, h.2.congrInode hSlots⟩

theorem iBlock_store {off w v k : Nat} (h : off + w ≤ 40 ∨ 100 ≤ off) (hk : k < 15) :
    iBlock (store inode off w v) k = iBlock inode k :=
  load_store_disjoint (by omega)

end Inodes

/-! ### Files -/

section Files

variable {ino : Nat} {inode : Mem}

theorem writeTarget_spec (hIno : geo.HasInode ino) (hExt : Extends base ino inode)
    (fileBlock : Nat) :
    Triple (Quiet (Good geo base (withInode base ino inode) [])) (writeTarget ino inode fileBlock)
      (fun result => Quiet fun fs disk =>
        Extends base ino result.1 ∧ Good geo base (withInode base ino result.1) [] fs disk ∧
          ∀ target ∈ result.2, geo.Writable disk (withInode base ino result.1) target.1) E := by
  unfold writeTarget
  refine get_spec fun st hst => ?_
  refine Triple.bind (Triple.weaken (ext4GetFileBlock_spec inode fileBlock) fun _ _ => And.left) ?_
  intro diskBlock
  split
  case isTrue hHole =>
    refine Triple.weaken (Q := fun fs disk => (fileBlock < ndirBlocks → iBlock inode fileBlock = 0) ∧
      Good geo base (withInode base ino inode) [] fs disk) (Triple.and_pre fun hSlot => ?_) ?_
    · refine Triple.attempt_bind (ext4AllocBlock_spec _) ?_ ?_
      · intro newBlock
        dsimp only
        refine Triple.bind (Triple.weaken (ext4SetFileBlock_spec hIno hExt fileBlock newBlock)
          fun _ _ => And.right) ?_
        rintro ⟨stored, inode'⟩
        dsimp only
        cases stored with
        | true =>
          refine Triple.pure fun s hs => hs.imp ?_
          rintro ⟨hExt', -, hGood, hWritable⟩
          have hSlots : ∀ k < 15, iBlock (addIBlocks inode' (st.fs.blockSize / 512)) k =
              iBlock inode' k := fun k hk => iBlock_store (by omega) hk
          refine ⟨?_, hGood.congrInode hSlots, ?_⟩
          · intro k hk
            rw [hSlots k hk]
            exact hExt' hSlot k hk
          · rintro target ⟨⟩
            refine hWritable.congr ?_
            intro i k _ hk
            unfold withInode
            rw [hSlots k hk]
        | false =>
          refine Triple.and_pre fun hExt' => ?_
          refine Triple.attempt_bind (ext4FreeBlock_spec newBlock) ?_ ?_
          · exact fun _ => Triple.pure fun _ hs => hs.imp fun h => ⟨hExt', h, nofun⟩
          · exact Triple.pure fun _ hs => hs.imp fun h => ⟨hExt', h, nofun⟩
      · exact Triple.pure fun _ hs => hs.imp fun h => ⟨hExt, h, nofun⟩
    · rintro fs disk ⟨hGood, -, hDirect⟩
      exact ⟨fun hNear => (hDirect hNear).symm.trans hHole, hGood⟩
  case isFalse hMapped =>
    refine Triple.attempt_bind_total (ext4ReadBlock_spec diskBlock) fun buf => ?_
    refine Triple.pure fun s hs => hs.imp ?_
    rintro ⟨⟨hGood, hBlock, -⟩, -⟩
    refine ⟨hExt, hGood, ?_⟩
    rintro target ⟨⟩
    have hSame := hBlock hMapped
    rw [hSame] at hMapped ⊢
    exact hGood.writable_mapped hIno hMapped

theorem writeLoop_spec (hIno : geo.HasInode ino) (hExt : Extends base ino inode)
    (data : List UInt8) (offset fuel written : Nat) :
    Triple (Quiet (Good geo base (withInode base ino inode) []))
      (writeLoop ino data offset fuel inode written)
      (fun result => Quiet fun fs disk => Extends base ino result.1 ∧
        Good geo base (withInode base ino result.1) [] fs disk) E := by
  have hStop : ∀ inode' (n : Nat), Extends base ino inode' →
      Triple (Quiet (Good geo base (withInode base ino inode') [])) (pure (inode', n))
        (fun result => Quiet fun fs disk => Extends base ino result.1 ∧
          Good geo base (withInode base ino result.1) [] fs disk) E :=
    fun inode' n hExt' => Triple.pure fun _ hs => hs.imp fun h => ⟨hExt', h⟩
  induction fuel generalizing inode written with
  | zero => exact hStop inode written hExt
  | succ fuel ih =>
    unfold writeLoop
    split
    case isFalse hDone => exact hStop inode written hExt
    case isTrue hMore =>
      refine get_spec fun st hst => ?_
      refine Triple.bind (Triple.weaken (writeTarget_spec hIno hExt _) fun _ _ => And.left) ?_
      rintro ⟨inode', target⟩
      refine Triple.and_pre fun hExt' => ?_
      cases target with
      | none => exact Triple.weaken (hStop inode' written hExt') fun _ _ => And.left
      | some target =>
        dsimp only
        refine Triple.attempt_bind_total (Q := fun _ => Quiet
          (Good geo base (withInode base ino inode') [])) ?_ fun _ => ih hExt' _
        refine ext4WriteBlockRaw_spec ?_
        rintro fs disk ⟨hGood, hTarget⟩
        exact hGood.write (hTarget target rfl)

theorem ext4WriteFile_spec (ino : Nat) (data : List UInt8) (offset : Nat) :
    Triple (Quiet (Settled geo)) (ext4WriteFile ino data offset) (fun _ => Quiet (Settled geo))
      (Quiet (Settled geo)) := by
  refine Triple.exists_pre fun base => ?_
  unfold ext4WriteFile
  refine Triple.bind (ext4ReadInode_spec ino) fun inode => ?_
  refine Triple.and_pre fun hIno => Triple.and_pre fun hExt => ?_
  refine Triple.bind (kmalloc_spec fun _ _ hGood => ⟨base, hGood.onDisk hExt⟩) fun _ => ?_
  refine Triple.bind (writeLoop_spec hIno hExt data offset _ 0) ?_
  rintro ⟨inode', written⟩
  dsimp only
  refine Triple.attempt_bind (Triple.weaken (Q := fun fs disk => Good geo base base [] fs disk ∧
      Good geo base (withInode base ino inode') [] fs disk)
    (ext4WriteInode_slots fun k hk => ?_) fun _ _ h => ⟨h.2.onDisk h.1, h.2⟩)
    (fun _ => Triple.pure fun _ => id) (Triple.pure fun _ => id)
  rw [setIMtime, iBlock_store (by omega) hk]
  split
  case isTrue hGrows => exact iBlock_store (by omega) hk
  case isFalse hInside => rfl

end Files

/-! ### Directories -/

section Directories

variable {dirIno : Nat} {dirInode : Mem}

theorem addInBlocks_spec (hIno : geo.HasInode dirIno) (e : DirEntry) (blocks : List Nat) :
    Triple (Quiet (Good geo base (withInode base dirIno dirInode) []))
      (addInBlocks dirInode e blocks)
      (fun _ => Quiet (Good geo base (withInode base dirIno dirInode) [])) E := by
  induction blocks with
  | nil => exact Triple.pure fun _ => id
  | cons b rest ih =>
    unfold addInBlocks
    refine get_spec fun st hst => ?_
    refine Triple.bind (ext4GetFileBlock_spec dirInode b) fun diskBlock => ?_
    split
    case isTrue hHole => exact Triple.weaken ih fun _ _ h => h.1.1
    case isFalse hMapped =>
      refine Triple.attempt_bind_total (ext4ReadBlock_spec diskBlock) fun buf => ?_
      dsimp only
      split
      case h_1 hFull => exact Triple.weaken ih fun _ _ h => h.1.1.1
      case h_2 offset actual slack hRoom =>
        refine Triple.bind (Q := fun _ => Quiet
          (Good geo base (withInode base dirIno dirInode) [])) ?_ fun _ => Triple.pure fun _ => id
        refine ext4WriteBlockRaw_spec ?_
        rintro fs disk ⟨⟨⟨hGood, -, -⟩, hBlock, -⟩, -⟩
        have hSame := hBlock hMapped
        rw [hSame] at hMapped ⊢
        exact hGood.write (hGood.writable_mapped hIno hMapped)

theorem addInNewBlock_spec (hIno : geo.HasInode dirIno) (hExt : Extends base dirIno dirInode)
    (e : DirEntry) (numBlocks : Nat) :
    Triple (Quiet (Good geo base (withInode base dirIno dirInode) []))
      (addInNewBlock dirIno dirInode e numBlocks) (fun _ => Quiet (Settled geo))
      (Quiet (Settled geo)) := by
  unfold addInNewBlock
  refine get_spec fun st hst => ?_
  refine Triple.bind (Q := fun n => Quiet (Good geo base (withInode base dirIno dirInode) [n]))
    ?_ fun newBlock => ?_
  · refine (ext4AllocBlock_spec _).conseq (fun _ hs => hs.imp And.left) ?_ ?_
    · exact fun _ _ hs => hs.imp And.right
    · exact fun _ hs => hs.imp fun hGood => ⟨base, hGood.onDisk hExt⟩
  refine Triple.attempt_bind_total (Q := fun _ => Quiet
    (Good geo base (withInode base dirIno dirInode) [newBlock])) ?_ fun _ => ?_
  · refine ext4WriteBlockRaw_spec ?_
    intro fs disk hGood
    exact hGood.write ((hGood.fresh newBlock List.mem_cons_self).writable hGood.world.sound)
  dsimp only
  refine Triple.bind (ext4SetFileBlock_spec hIno hExt numBlocks newBlock) ?_
  rintro ⟨stored, dirInode'⟩
  cases stored with
  | true =>
    refine Triple.weaken (Q := fun fs disk => Good geo base base [] fs disk ∧
        Good geo base (withInode base dirIno dirInode') [] fs disk)
      (ext4WriteInode_slots fun k hk => ?_) fun _ _ h => ⟨h.2.1, h.2.2.1⟩
    rw [addIBlocks, iBlock_store (by omega) hk, setISizeLo, iBlock_store (by omega) hk]
  | false =>
    refine Triple.and_pre fun hExt' => Triple.attempt_bind (ext4FreeBlock_spec newBlock) ?_ ?_
    · exact fun _ => fail_spec fun _ _ hGood => ⟨base, hGood.onDisk hExt'⟩
    · exact fail_spec fun _ _ hGood => ⟨base, hGood.onDisk hExt'⟩

theorem ext4AddDirEntry_spec (dirIno : Nat) (e : DirEntry) :
    Triple (Quiet (Settled geo)) (ext4AddDirEntry dirIno e) (fun _ => Quiet (Settled geo))
      (Quiet (Settled geo)) := by
  refine Triple.exists_pre fun base => ?_
  unfold ext4AddDirEntry
  refine Triple.bind (ext4ReadInode_spec dirIno) fun dirInode => ?_
  refine Triple.and_pre fun hIno => Triple.and_pre fun hExt => ?_
  refine Triple.bind (kmalloc_spec fun _ _ hGood => ⟨base, hGood.onDisk hExt⟩) fun _ => ?_
  refine get_spec fun st hst => ?_
  refine Triple.bind (Triple.weaken (addInBlocks_spec hIno e _) fun _ _ => And.left) ?_
  intro added
  cases added with
  | true => exact Triple.pure fun _ hs => hs.imp fun hGood => ⟨base, hGood.onDisk hExt⟩
  | false => exact addInNewBlock_spec hIno hExt e _

end Directories

/-! ### Creating -/

theorem Settled.inodeBitmap {fs : Ext4Fs} {disk : Nat → Mem} (h : Settled geo fs disk) {g : Nat}
    (hg : g < geo.groupCount) (m n : Nat) (buf : Mem) :
    Settled geo (Ext4.inodeBitmap.count fs g m n)
      (Function.update disk (Ext4.inodeBitmap.block fs g) buf) := by
  obtain ⟨base, hGood⟩ := h
  obtain rfl := hGood.geometry
  have hWritten : Good fs.geometry base base [] fs
      (Function.update disk (Ext4.inodeBitmap.block fs g) buf) :=
    hGood.write (hGood.world.writable_inodeBitmap hg)
  refine ⟨base, ?_, hWritten.world, hWritten.base, hWritten.fresh⟩
  exact geometry_count (Or.inr rfl) fs g m n

theorem Settled.groupCount {fs : Ext4Fs} {disk : Nat → Mem} (h : Settled geo fs disk) :
    fs.groupCount = geo.groupCount := by
  obtain ⟨base, hGood⟩ := h
  rw [← hGood.geometry]
  rfl

theorem ext4AllocInode_spec (preferred : Nat) :
    Triple (Quiet (Settled geo)) (ext4AllocInode preferred) (fun _ => Quiet (Settled geo))
      (Quiet (Settled geo)) := by
  refine Triple.bind (inodeBitmap.take_spec geo.groupCount (T := fun _ _ => Settled geo)
    (fun _ _ h => h.groupCount) ?_ preferred) ?_
  · intro g hg fs disk index h _
    exact h.inodeBitmap hg _ _ _
  · rintro ⟨g, index⟩
    refine get_spec fun st hst => ?_
    unfold asInt
    split
    case isTrue hInt => exact Triple.pure fun _ hs => hs.imp And.left
    case isFalse hLarge => exact fail_spec fun _ _ => And.left

theorem ext4FreeInode_spec (ino : Nat) :
    Triple (Quiet (Settled geo)) (ext4FreeInode ino) (fun _ => Quiet (Settled geo))
      (Quiet (Settled geo)) := by
  unfold ext4FreeInode
  refine get_spec fun st hst => ?_
  split
  case isTrue hZero => exact fail_spec fun _ _ => And.left
  case isFalse hPos =>
    dsimp only
    split
    case isTrue hOut => exact fail_spec fun _ _ => And.left
    case isFalse hIn =>
      rw [hst.groupCount] at hIn
      refine inodeBitmap.release_spec (fun fs disk h => ?_) fun _ _ => And.left
      exact h.1.inodeBitmap (Nat.lt_of_not_le hIn) _ _ _

theorem iBlock_newInode (mode k : Nat) : iBlock (newInode mode) k = 0 := by
  have hStore : ∀ m off v, off + 2 ≤ 40 → iBlock (store m off 2 v) k = iBlock m k := by
    intro m off v hOff
    exact load_store_disjoint (by omega)
  rw [newInode, hStore _ _ _ (by omega), hStore _ _ _ (by omega)]
  exact load_zero 4 _

theorem writeNewInode_spec (ino mode : Nat) :
    Triple (Quiet (Settled geo)) (ext4WriteInode ino (newInode mode)) (fun _ => Quiet (Settled geo))
      (Quiet (Settled geo)) := by
  refine Triple.exists_pre fun base => ?_
  refine Triple.weaken (ext4WriteInode_spec base ino (newInode mode))
    fun fs disk hGood => ⟨hGood, hGood.forget ?_⟩
  intro i k _
  unfold withInode
  split
  case isTrue hSame => exact Or.inr (iBlock_newInode mode k)
  case isFalse hOther => exact Or.inl rfl

theorem addLink_spec (ino : Nat) :
    Triple (Quiet (Settled geo))
      (do
        let parent ← ext4ReadInode ino
        ext4WriteInode ino (addILinks parent 1) : Ext4M Unit)
      (fun _ => Quiet (Settled geo)) (Quiet (Settled geo)) := by
  refine Triple.exists_pre fun base => ?_
  refine Triple.bind (ext4ReadInode_spec ino) fun parent => ?_
  refine Triple.and_pre fun _ => Triple.and_pre fun hExt => ?_
  refine Triple.weaken (ext4WriteInode_slots fun k hk => iBlock_store (by omega) hk)
    fun _ _ hGood => ⟨hGood.onDisk hExt, hGood⟩

theorem ext4CreateFile_spec (parentIno : Nat) (name : List UInt8) (mode : Nat) :
    Triple (Quiet (Settled geo)) (ext4CreateFile parentIno name mode) (fun _ => Quiet (Settled geo))
      (Quiet (Settled geo)) := by
  unfold ext4CreateFile
  refine get_spec fun st hst => ?_
  refine Triple.bind (Triple.weaken (ext4AllocInode_spec _) fun _ _ => And.left) fun newIno => ?_
  dsimp only
  refine Triple.attempt_bind (Triple.bind (writeNewInode_spec newIno mode) fun _ =>
    ext4AddDirEntry_spec parentIno _) ?_ ?_
  · intro _
    dsimp only
    split
    case isFalse hFile => exact Triple.pure fun _ => id
    case isTrue hDir =>
      refine Triple.attempt_bind (ext4AddDirEntry_spec newIno _) (fun _ => ?_) ?_
      all_goals
        refine Triple.attempt_bind (ext4AddDirEntry_spec newIno _) (fun _ => ?_) ?_
        all_goals
          exact Triple.attempt_bind (addLink_spec parentIno)
            (fun _ => Triple.pure fun _ => id) (Triple.pure fun _ => id)
  · exact Triple.attempt_bind (ext4FreeInode_spec newIno) (fun _ => fail_spec fun _ _ => id)
      (fail_spec fun _ _ => id)

/-! ### Truncating -/

def truncatedBlocks (fs : Ext4Fs) (inode : Mem) (size : Nat) : List Nat :=
  let newBlocks := (size + fs.blockSize - 1) / fs.blockSize
  let oldBlocks := (iSizeLo inode + fs.blockSize - 1) / fs.blockSize
  if size < iSizeLo inode then (List.range (oldBlocks - newBlocks)).map (newBlocks + ·) else []

/-- No block is mapped in the part of the file that a truncation to `size` cuts off. -/
def CutsHoles (ino size : Nat) (fs : Ext4Fs) (disk : Nat → Mem) : Prop :=
  ∀ b ∈ truncatedBlocks fs (fs.inodeOn disk ino) size,
    mappedBlock fs.ptrsPerBlock disk (fs.inodeOn disk ino) b = 0

theorem freeFileBlocks_spec {Q : Assertion} {inode : Mem} {blocks : List Nat}
    (hHoles : ∀ fs disk, Q fs disk → ∀ b ∈ blocks, mappedBlock fs.ptrsPerBlock disk inode b = 0) :
    Triple (Quiet Q) (freeFileBlocks inode blocks) (fun _ => Quiet Q) E := by
  induction blocks with
  | nil => exact Triple.pure fun _ => id
  | cons b rest ih =>
    unfold freeFileBlocks
    have hRest := ih fun fs disk hQ b hb => hHoles fs disk hQ b (List.mem_cons_of_mem _ hb)
    refine Triple.bind (ext4GetFileBlock_spec inode b) fun diskBlock => ?_
    split
    case isFalse hHole => exact Triple.weaken hRest fun _ _ => And.left
    case isTrue hMapped =>
      intro st hst
      have hZero := hHoles _ _ hst.holds.1 b List.mem_cons_self
      exact absurd ((hst.holds.2.1 hMapped).trans hZero) hMapped

theorem ext4VfsTruncate_spec (ino size : Nat) :
    Triple (Quiet fun fs disk => Settled geo fs disk ∧ CutsHoles ino size fs disk)
      (ext4VfsTruncate ino size) (fun _ => Quiet (Settled geo)) (Quiet (Settled geo)) := by
  unfold ext4VfsTruncate
  refine Triple.bind (Q := fun inode => Quiet fun fs disk => Settled geo fs disk ∧
    CutsHoles ino size fs disk ∧ fs.geometry.HasInode ino ∧ inode = fs.inodeOn disk ino) ?_ ?_
  · refine (ext4ReadInode_served ino).conseq (fun _ => id) ?_ fun _ hs => hs.imp And.left
    exact fun inode s hs => hs.imp fun h => ⟨h.1.1, h.1.2, h.2⟩
  intro inode
  refine get_spec fun st hst => ?_
  obtain ⟨⟨base, hGood⟩, hHoles, hIno, rfl⟩ := hst
  obtain rfl := hGood.geometry
  dsimp only
  have hWrite : Triple (Quiet fun fs disk => fs = st.fs ∧ disk = st.disk)
      (ext4WriteInode ino (setISizeHi (setISizeLo (st.fs.inodeOn st.disk ino) size) (size / 2 ^ 32)))
      (fun _ => Quiet (Settled st.fs.geometry)) (Quiet (Settled st.fs.geometry)) := by
    refine Triple.weaken (ext4WriteInode_spec base ino _) ?_
    rintro fs disk ⟨rfl, rfl⟩
    refine ⟨hGood, hGood.congr ?_⟩
    intro i k hi hk
    unfold withInode
    split
    case isFalse hOther => rfl
    case isTrue hSame =>
      rw [setISizeHi, iBlock_store (by omega) hk, setISizeLo, iBlock_store (by omega) hk, hSame,
        hGood.read hIno]
  split
  case isFalse hGrows => exact Triple.weaken hWrite fun _ _ h => h.2
  case isTrue hShrinks =>
    refine Triple.bind (Triple.weaken (freeFileBlocks_spec ?_) fun _ _ h => h.2) fun _ => hWrite
    rintro fs disk ⟨rfl, rfl⟩
    unfold CutsHoles truncatedBlocks at hHoles
    rw [if_pos hShrinks] at hHoles
    exact hHoles

end UnixOS.Fs.Ext4
