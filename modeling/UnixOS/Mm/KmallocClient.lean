import UnixOS.Mm.KmallocSafety

/-! # Runs of the kernel heap

A client is the heap together with the pointers its callers hold and the sizes they asked for.
Legal calls release or resize only held pointers and write only inside a requested size. The
invariant is stated on the bytes of the heap alone; the client only says what callers may rely on.
-/

namespace UnixOS.Kmalloc

open ByteMemory DoublyLinked Tiling

structure Client where
  heap : Heap
  live : List (Nat × Nat)

inductive Call where
  | kmalloc (size flags : Nat)
  | kzalloc (size flags : Nat)
  | krealloc (ptr newSize flags : Nat)
  | kfree (ptr : Nat)
  | write (addr : Nat) (value : UInt8)
deriving DecidableEq

def hold (live : List (Nat × Nat)) (ptr size : Nat) : List (Nat × Nat) :=
  if ptr = 0 then live else (ptr, size) :: live

def release (live : List (Nat × Nat)) (ptr : Nat) : List (Nat × Nat) :=
  live.filter fun x => x.1 ≠ ptr

def resize (live : List (Nat × Nat)) (ptr newPtr newSize : Nat) : List (Nat × Nat) :=
  if ptr = 0 then hold live newPtr newSize
  else if newSize = 0 then release live ptr
  else if newPtr = 0 then live
  else (newPtr, newSize) :: release live ptr

def Client.exec (base : Nat) (c : Client) : Call → Option Client
  | .kmalloc size flags =>
    (Kmalloc.kmalloc base c.heap size flags).map fun r => ⟨r.1, hold c.live r.2 size⟩
  | .kzalloc size flags =>
    (Kmalloc.kzalloc base c.heap size flags).map fun r => ⟨r.1, hold c.live r.2 size⟩
  | .krealloc ptr newSize flags =>
    (Kmalloc.krealloc base c.heap ptr newSize flags).map fun r =>
      ⟨r.1, resize c.live ptr r.2 newSize⟩
  | .kfree ptr => some ⟨Kmalloc.kfree c.heap ptr, release c.live ptr⟩
  | .write addr value =>
    some ⟨{ c.heap with mem := fill c.heap.mem addr 1 (fun _ => value) }, c.live⟩

def Client.run (base : Nat) : Client → List Call → Option Client
  | c, [] => some c
  | c, call :: calls => (c.exec base call).bind fun c' => Client.run base c' calls

def Held (c : Client) (ptr : Nat) : Prop := ptr = 0 ∨ ∃ x ∈ c.live, x.1 = ptr

def Call.Allowed (c : Client) : Call → Prop
  | .kmalloc _ _ => True
  | .kzalloc _ _ => True
  | .krealloc ptr _ _ => Held c ptr
  | .kfree ptr => Held c ptr
  | .write addr _ => ∃ x ∈ c.live, x.1 ≤ addr ∧ addr < x.1 + x.2

def Legal (base : Nat) : Client → List Call → Prop
  | _, [] => True
  | c, call :: calls => call.Allowed c ∧ ∀ c' ∈ c.exec base call, Legal base c' calls

instance (c : Client) (ptr : Nat) : Decidable (Held c ptr) :=
  inferInstanceAs (Decidable (_ ∨ _))

instance (c : Client) : DecidablePred (Call.Allowed c)
  | .kmalloc _ _ => isTrue trivial
  | .kzalloc _ _ => isTrue trivial
  | .krealloc ptr _ _ => inferInstanceAs (Decidable (Held c ptr))
  | .kfree ptr => inferInstanceAs (Decidable (Held c ptr))
  | .write addr _ => inferInstanceAs (Decidable (∃ x ∈ c.live, x.1 ≤ addr ∧ addr < x.1 + x.2))

instance decidableLegal (base : Nat) : ∀ c calls, Decidable (Legal base c calls)
  | _, [] => isTrue trivial
  | c, call :: calls =>
    have := fun c' => decidableLegal base c' calls
    inferInstanceAs (Decidable (call.Allowed c ∧ ∀ c' ∈ c.exec base call, Legal base c' calls))

def boot (base : Nat) (h : Heap) : Client := ⟨kmallocInit base h, []⟩

/-- Headers tile the heap, the free list holds exactly the FREE blocks, and the account is right. -/
def HeapInvariant (h : Heap) : Prop :=
  ∃ (bs : List Block) (fl : List Nat),
    Tiles Block.addr Block.size h.heapStart bs h.heapEnd ∧
    (∀ b ∈ bs, headerSize ≤ b.size ∧ h.get .size b.addr = b.size ∧ h.get .magic b.addr = b.magic) ∧
    h.freeList = fl.headD 0 ∧ Seg (h.get .next) (h.get .prev) 0 fl 0 ∧ fl.Nodup ∧
    (∀ a, a ∈ fl ↔ ∃ b ∈ bs, b.addr = a ∧ h.get .magic b.addr = blockMagicFree) ∧
    h.heapUsed = usedSize bs

def dataSize (h : Heap) (ptr : Nat) : Nat := h.get .size (dataToBlock ptr) - headerSize

def AllocationsSafe (c : Client) : Prop :=
  (∀ x ∈ c.live, c.heap.heapStart ≤ x.1 ∧ x.2 ≤ dataSize c.heap x.1 ∧
    x.1 + dataSize c.heap x.1 ≤ c.heap.heapEnd) ∧
  c.live.Pairwise fun x y =>
    x.1 + dataSize c.heap x.1 ≤ y.1 ∨ y.1 + dataSize c.heap y.1 ≤ x.1

section Holding

variable {base : Nat} {h : Heap} {bs bs' : List Block} {fl : List Nat} {live : List (Nat × Nat)}

structure Holds (bs : List Block) (live : List (Nat × Nat)) : Prop where
  block : ∀ x ∈ live, ∃ b ∈ bs, b.used = true ∧ x.1 = b.addr + headerSize ∧ x.2 + headerSize ≤ b.size
  nodup : (live.map Prod.fst).Nodup

theorem Holds.keep (hHolds : Holds bs live) (hKeep : ∀ d ∈ bs, d.used = true → d ∈ bs') :
    Holds bs' live := by
  refine ⟨?_, hHolds.nodup⟩
  intro x hx
  obtain ⟨b, hb, hUsed, hPtr, hSize⟩ := hHolds.block x hx
  exact ⟨b, hKeep b hb hUsed, hUsed, hPtr, hSize⟩

theorem Holds.request (hHolds : Holds bs live) {p size : Nat} (hYields : Yields bs bs' p size) :
    Holds bs' (hold live p size) := by
  obtain ⟨hKeep, hNull | ⟨u, hu, hUsed, hPtr, hSize, hOwn⟩⟩ := hYields
  · rw [hold, if_pos hNull]
    exact hHolds.keep hKeep
  · have hp : p ≠ 0 := by simp only [headerSize] at hPtr; omega
    rw [hold, if_neg hp]
    refine ⟨?_, ?_⟩
    · intro x hx
      rcases List.mem_cons.mp hx with rfl | hx
      · exact ⟨u, hu, hUsed, hPtr, hSize⟩
      · exact (hHolds.keep hKeep).block x hx
    · rw [List.map_cons, List.nodup_cons]
      refine ⟨?_, hHolds.nodup⟩
      intro hMem
      obtain ⟨x, hx, hEq⟩ := List.mem_map.mp hMem
      obtain ⟨b, hb, hbUsed, hbPtr, _⟩ := hHolds.block x hx
      apply hOwn b hb hbUsed
      omega

theorem Holds.release (hHolds : Holds bs live) {b : Block}
    (hKeep : ∀ d ∈ bs, d.used = true → d.addr ≠ b.addr → d ∈ bs') :
    Holds bs' (release live (b.addr + headerSize)) := by
  refine ⟨?_, ?_⟩
  · intro x hx
    obtain ⟨hx, hne⟩ := List.mem_filter.mp hx
    obtain ⟨d, hd, hUsed, hPtr, hSize⟩ := hHolds.block x hx
    refine ⟨d, hKeep d hd hUsed ?_, hUsed, hPtr, hSize⟩
    intro hEq
    simp [hPtr, hEq] at hne
  · exact hHolds.nodup.sublist (List.Sublist.map _ List.filter_sublist)

theorem Holds.ne_null (hHolds : Holds bs live) {x : Nat × Nat} (hx : x ∈ live) : x.1 ≠ 0 := by
  obtain ⟨b, _, _, hPtr, _⟩ := hHolds.block x hx
  simp only [headerSize] at hPtr
  omega

theorem Holds.release_null (hHolds : Holds bs live) : Kmalloc.release live 0 = live := by
  apply List.filter_eq_self.mpr
  intro x hx
  simpa using hHolds.ne_null hx

theorem Holds.resized (hHolds : Holds bs live) {b : Block} {p newSize : Nat} (hb : b ∈ bs) (hUsed : b.used = true)
    (hPtr : p = b.addr + headerSize) (hFits : newSize + headerSize ≤ b.size) :
    Holds bs ((p, newSize) :: Kmalloc.release live p) := by
  refine ⟨?_, ?_⟩
  · intro y hy
    rcases List.mem_cons.mp hy with rfl | hy
    · exact ⟨b, hb, hUsed, hPtr, hFits⟩
    · exact hHolds.block y (List.mem_of_mem_filter hy)
  · rw [List.map_cons, List.nodup_cons]
    refine ⟨?_, hHolds.nodup.sublist (List.Sublist.map _ List.filter_sublist)⟩
    intro hMem
    obtain ⟨y, hy, hEq⟩ := List.mem_map.mp hMem
    simp [Kmalloc.release, hEq] at hy

theorem kfree_spec (c : Consistent base h bs fl) (hHolds : Holds bs live) {p : Nat}
    (hp : p = 0 ∨ ∃ x ∈ live, x.1 = p) :
    ∃ bs' fl', Consistent base (kfree h p) bs' fl' ∧ Holds bs' (release live p) := by
  rcases hp with rfl | ⟨x, hx, rfl⟩
  · rw [hHolds.release_null]
    exact ⟨bs, fl, by rw [kfree, if_pos rfl]; exact c, hHolds⟩
  · obtain ⟨b, hb, hUsed, hPtr, _⟩ := hHolds.block x hx
    obtain ⟨bs', fl', hFreed, hKeep⟩ := kfreeBlockLocked_consistent c hb hUsed
    rw [hPtr, kfree_used c hb hUsed]
    exact ⟨bs', fl', hFreed, hHolds.release hKeep⟩

theorem krealloc_cases (c : Consistent base h bs fl) (hHolds : Holds bs live) {x : Nat × Nat} (hx : x ∈ live)
    {newSize : Nat} (hSome : newSize ≠ 0) (flags : Nat) :
    ∃ b ∈ bs, b.used = true ∧ x.1 = b.addr + headerSize ∧ x.2 + headerSize ≤ b.size ∧
      ((newSize + headerSize ≤ b.size ∧ krealloc base h x.1 newSize flags = some (h, x.1)) ∨
        krealloc base h x.1 newSize flags = some (h, 0) ∨
        ∃ h' q, b.size - headerSize ≤ newSize ∧ q ≠ 0 ∧ kmalloc base h newSize flags = some (h', q) ∧
          krealloc base h x.1 newSize flags =
            some (kfree (copyData h' q x.1 (b.size - headerSize)) x.1, q)) := by
  have hNull := hHolds.ne_null hx
  obtain ⟨b, hb, hUsed, hPtr, hFits⟩ := hHolds.block x hx
  have hSizeLt := c.rep.size_lt hb
  have hRoom := c.rep.room b hb
  have hOld : (h.get .size (dataToBlock x.1) + 2 ^ 64 - headerSize) % 2 ^ 64 = b.size - headerSize := by
    rw [hPtr, dataToBlock, Nat.add_sub_cancel, c.rep.size_eq b hb]
    simp only [headerSize] at *
    omega
  refine ⟨b, hb, hUsed, hPtr, hFits, ?_⟩
  by_cases hFit : newSize ≤ b.size - headerSize
  · exact .inl ⟨by omega, by simp only [krealloc, if_neg hNull, if_neg hSome, hOld, if_pos hFit]⟩
  obtain ⟨hRun, -⟩ | ⟨t, h', B₁, d, B₂, l₁, l₂, hRun, -⟩ := kmalloc_outcome c newSize flags
  · exact .inr (.inl (by simp only [krealloc, if_neg hNull, if_neg hSome, hOld, if_neg hFit, hRun, if_true]))
  · have hq : d.addr + headerSize ≠ 0 := by simp [headerSize]
    exact .inr (.inr ⟨h', _, by omega, hq, hRun, by
      simp only [krealloc, if_neg hNull, if_neg hSome, hOld, if_neg hFit, hRun, if_neg hq]⟩)

theorem krealloc_spec (c : Consistent base h bs fl) (hHolds : Holds bs live) {p : Nat}
    (hp : p = 0 ∨ ∃ x ∈ live, x.1 = p) (newSize flags : Nat) :
    ∃ h' q, krealloc base h p newSize flags = some (h', q) ∧
      ∃ bs' fl', Consistent base h' bs' fl' ∧ Holds bs' (resize live p q newSize) := by
  by_cases hNull : p = 0
  · obtain ⟨h', q, hRun, bs', fl', hC, hYields⟩ := kmalloc_spec c newSize flags
    refine ⟨h', q, by rw [krealloc, if_pos hNull, hRun], bs', fl', hC, ?_⟩
    rw [resize, if_pos hNull]
    exact hHolds.request hYields
  by_cases hZero : newSize = 0
  · obtain ⟨bs', fl', hC, hHeld⟩ := kfree_spec c hHolds hp
    refine ⟨_, 0, by rw [krealloc, if_neg hNull, if_pos hZero], bs', fl', hC, ?_⟩
    rw [resize, if_neg hNull, if_pos hZero]
    exact hHeld
  obtain ⟨x, hx, rfl⟩ := hp.resolve_left hNull
  obtain ⟨b, hb, hUsed, hPtr, -, ⟨hFits, hRun⟩ | hRun | ⟨h', q, hGrow, hq, hAlloc, hRun⟩⟩ :=
    krealloc_cases c hHolds hx hZero flags
  · -- the block already has the room: the same pointer, with its new size
    refine ⟨h, x.1, hRun, bs, fl, c, ?_⟩
    rw [resize, if_neg hNull, if_neg hZero, if_neg hNull]
    exact hHolds.resized hb hUsed hPtr hFits
  · refine ⟨h, 0, hRun, bs, fl, c, ?_⟩
    rwa [resize, if_neg hNull, if_neg hZero, if_pos rfl]
  · obtain ⟨h₁, q₁, hAlloc₁, bs', fl', hC, hYields⟩ := kmalloc_spec c newSize flags
    obtain ⟨rfl, rfl⟩ := Prod.mk.inj (Option.some.inj (hAlloc₁.symm.trans hAlloc))
    have hHeld := hHolds.request hYields
    obtain ⟨u, hu, -, huPtr, huSize, hOwn⟩ := hYields.2.resolve_left hq
    rw [hold, if_neg hq] at hHeld
    have hCopied := hC.copyData hu q₁ x.1 (b.size - headerSize) (by omega) (by omega)
    obtain ⟨bs'', fl'', hFinal, hRest⟩ := kfree_spec hCopied hHeld (p := x.1)
      (Or.inr ⟨x, List.mem_cons_of_mem _ hx, rfl⟩)
    have hqx : q₁ ≠ x.1 := by
      intro hEq
      apply hOwn b hb hUsed
      omega
    refine ⟨_, q₁, hRun, bs'', fl'', hFinal, ?_⟩
    rw [resize, if_neg hNull, if_neg hZero, if_neg hq]
    rwa [release, List.filter_cons_of_pos (by simpa using hqx)] at hRest

end Holding

section Runs

variable {base : Nat}

def Sound (base : Nat) (c : Client) : Prop :=
  ∃ bs fl, Consistent base c.heap bs fl ∧ Holds bs c.live

theorem Sound.exec {c : Client} (hSound : Sound base c) {call : Call} (hAllowed : call.Allowed c) :
    ∃ c', c.exec base call = some c' ∧ Sound base c' := by
  obtain ⟨bs, fl, hC, hHolds⟩ := hSound
  cases call with
  | kmalloc size flags =>
    obtain ⟨h', p, hRun, bs', fl', hC', hYields⟩ := kmalloc_spec hC size flags
    exact ⟨⟨h', hold c.live p size⟩, by rw [Client.exec, hRun]; rfl, bs', fl', hC',
      hHolds.request hYields⟩
  | kzalloc size flags =>
    obtain ⟨h', p, hRun, bs', fl', hC', hYields⟩ := kmalloc_spec hC size (flags ||| gfpZero)
    exact ⟨⟨h', hold c.live p size⟩, by rw [Client.exec, kzalloc, hRun]; rfl, bs', fl', hC',
      hHolds.request hYields⟩
  | krealloc ptr newSize flags =>
    obtain ⟨h', q, hRun, bs', fl', hC', hHolds'⟩ := krealloc_spec hC hHolds hAllowed newSize flags
    exact ⟨⟨h', resize c.live ptr q newSize⟩, by rw [Client.exec, hRun]; rfl, bs', fl', hC', hHolds'⟩
  | kfree ptr =>
    obtain ⟨bs', fl', hC', hHolds'⟩ := kfree_spec hC hHolds hAllowed
    exact ⟨_, rfl, bs', fl', hC', hHolds'⟩
  | write addr value =>
    obtain ⟨x, hx, hLow, hHigh⟩ := hAllowed
    obtain ⟨b, hb, _, hPtr, hSize⟩ := hHolds.block x hx
    refine ⟨_, rfl, bs, fl, hC.writeData hb ?_ rfl ⟨rfl, rfl, rfl, rfl⟩, hHolds⟩
    intro y hy
    change fill c.heap.mem addr 1 (fun _ => value) y = c.heap.mem y
    exact fill_outside (by omega)

theorem Sound.run {c : Client} (hSound : Sound base c) {calls : List Call}
    (hLegal : Legal base c calls) : ∃ c', c.run base calls = some c' ∧ Sound base c' := by
  induction calls generalizing c with
  | nil => exact ⟨c, rfl, hSound⟩
  | cons call calls ih =>
    obtain ⟨hAllowed, hRest⟩ := hLegal
    obtain ⟨c', hExec, hSound'⟩ := hSound.exec hAllowed
    obtain ⟨c'', hRun, hFinal⟩ := ih hSound' (hRest c' hExec)
    exact ⟨c'', by rw [Client.run, hExec]; exact hRun, hFinal⟩

theorem Sound.heapInvariant {c : Client} (hSound : Sound base c) : HeapInvariant c.heap := by
  obtain ⟨bs, fl, hC, _⟩ := hSound
  refine ⟨bs, fl, hC.rep.tiles, ?_, hC.rep.head_eq, hC.rep.links, hC.rep.nodup, ?_, hC.used_eq⟩
  · intro b hb
    exact ⟨hC.rep.room b hb, hC.rep.size_eq b hb, hC.rep.magic_eq b hb⟩
  · intro a
    constructor
    · intro ha
      obtain ⟨b, hb, hba, hFree⟩ := hC.free_block ha
      exact ⟨b, hb, hba, by rw [hC.rep.magic_eq b hb, Block.magic, hFree]; rfl⟩
    · rintro ⟨b, hb, rfl, hMagic⟩
      apply (hC.listed b hb).mpr
      rw [hC.rep.magic_eq b hb, Block.magic] at hMagic
      cases hUsed : b.used with
      | false => rfl
      | true => simp [hUsed, blockMagicUsed, blockMagicFree] at hMagic

theorem Sound.allocationsSafe {c : Client} (hSound : Sound base c) : AllocationsSafe c := by
  obtain ⟨bs, fl, hC, hHolds⟩ := hSound
  have hData : ∀ b ∈ bs, dataSize c.heap (b.addr + headerSize) = b.size - headerSize := by
    intro b hb
    rw [dataSize, dataToBlock, Nat.add_sub_cancel, hC.rep.size_eq b hb]
  refine ⟨?_, ?_⟩
  · intro x hx
    obtain ⟨b, hb, _, hPtr, hSize⟩ := hHolds.block x hx
    have hBounds := hC.rep.tiles.bounds hb
    have hRoom := hC.rep.room b hb
    rw [hPtr, hData b hb]
    omega
  · have hDistinct := List.pairwise_map.mp hHolds.nodup
    refine hDistinct.imp_of_mem ?_
    intro x y hx hy hne
    obtain ⟨b, hb, _, hbPtr, _⟩ := hHolds.block x hx
    obtain ⟨d, hd, _, hdPtr, _⟩ := hHolds.block y hy
    have hbRoom := hC.rep.room b hb
    have hdRoom := hC.rep.room d hd
    rw [hbPtr, hdPtr, hData b hb, hData d hd]
    rcases hC.rep.tiles.eq_or_disjoint hb hd with rfl | hLow | hHigh
    · exact absurd (hbPtr.trans hdPtr.symm) hne
    · left
      omega
    · right
      omega

/-- Every legal sequence of calls returns, keeps the heap invariant and keeps allocations apart. -/
theorem kmalloc_heap_invariant (hBase : 0 < base) (hTop : base + heapSize < 2 ^ 64) (h : Heap)
    (calls : List Call) (hLegal : Legal base (boot base h) calls) :
    ∃ c, (boot base h).run base calls = some c ∧ c.heap.heapStart = base ∧
      c.heap.heapEnd = base + heapSize ∧ HeapInvariant c.heap ∧ AllocationsSafe c := by
  have hBoot : Sound base (boot base h) :=
    ⟨_, _, kmallocInit_consistent hBase hTop h, ⟨by simp [boot], List.nodup_nil⟩⟩
  obtain ⟨c, hRun, hSound⟩ := hBoot.run hLegal
  have ⟨_, _, hC, _⟩ := hSound
  exact ⟨c, hRun, hC.start_eq, hC.end_eq, hSound.heapInvariant, hSound.allocationsSafe⟩

/-- The static data before `kmalloc_init` has run. -/
def uninitialised : Heap := ⟨fun _ => 0, 0, 0, 0, 0, 0, false⟩

theorem kmalloc_heap_invariant_heapBase :
    let calls : List Call := [.kmalloc 100 0, .kzalloc 8 0, .write 0x42000030 7, .kfree 0x42000028,
      .krealloc 0x420000C8 400 0]
    Legal 0x42000000 (boot 0x42000000 uninitialised) calls ∧
      ∃ c, (boot 0x42000000 uninitialised).run 0x42000000 calls = some c ∧
        c.heap.heapStart = 0x42000000 ∧ c.heap.heapEnd = 0x42000000 + heapSize ∧
        HeapInvariant c.heap ∧ AllocationsSafe c := by
  intro calls
  have hLegal : Legal 0x42000000 (boot 0x42000000 uninitialised) calls := by decide +kernel
  exact ⟨hLegal, kmalloc_heap_invariant (by decide) (by decide) uninitialised calls hLegal⟩

end Runs

end UnixOS.Kmalloc
