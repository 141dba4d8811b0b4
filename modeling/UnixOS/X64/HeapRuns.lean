import UnixOS.X64.HeapCalls

/-! # Runs of the x86-64 heap

A client is the heap with the pointers its callers hold and the sizes they asked for. Callers release or resize only
held pointers, write only inside the size they asked for, and ask for no size near the end of the 64 bits.
-/

namespace UnixOS.X64Heap

open ByteMemory Records DoublyLinked Tiling

structure Client where
  heap : Heap
  live : List (Nat × Nat)

inductive Call where
  | kmalloc (size : Nat)
  | kzalloc (size : Nat)
  | krealloc (ptr newSize : Nat)
  | kfree (ptr : Nat)
  | write (addr : Nat) (value : UInt8)
deriving DecidableEq

def hold (live : List (Nat × Nat)) (ptr size : Nat) : List (Nat × Nat) :=
  if ptr = 0 then live else (ptr, size) :: live

def release (live : List (Nat × Nat)) (ptr : Nat) : List (Nat × Nat) := live.filter fun x => x.1 ≠ ptr

def resize (live : List (Nat × Nat)) (ptr newPtr newSize : Nat) : List (Nat × Nat) :=
  if ptr = 0 then hold live newPtr newSize
  else if newSize = 0 then release live ptr
  else if newPtr = 0 then live
  else (newPtr, newSize) :: release live ptr

def Client.exec (base : Nat) (c : Client) : Call → Option Client
  | .kmalloc size => (X64Heap.kmalloc base c.heap size).map fun r => ⟨r.1, hold c.live r.2 size⟩
  | .kzalloc size => (X64Heap.kzalloc base c.heap size).map fun r => ⟨r.1, hold c.live r.2 size⟩
  | .krealloc ptr newSize =>
    (X64Heap.krealloc base c.heap ptr newSize).map fun r => ⟨r.1, resize c.live ptr r.2 newSize⟩
  | .kfree ptr => some ⟨X64Heap.kfree c.heap ptr, release c.live ptr⟩
  | .write addr value => some ⟨{ c.heap with mem := fill c.heap.mem addr 1 (fun _ => value) }, c.live⟩

def Client.run (base : Nat) : Client → List Call → Option Client
  | c, [] => some c
  | c, call :: calls => (c.exec base call).bind fun c' => Client.run base c' calls

def Held (c : Client) (ptr : Nat) : Prop := ptr = 0 ∨ ∃ x ∈ c.live, x.1 = ptr

def Call.Allowed (c : Client) : Call → Prop
  | .kmalloc size => size + 47 < 2 ^ 64
  | .kzalloc size => size + 47 < 2 ^ 64
  | .krealloc ptr newSize => Held c ptr ∧ newSize + 47 < 2 ^ 64
  | .kfree ptr => Held c ptr
  | .write addr _ => ∃ x ∈ c.live, x.1 ≤ addr ∧ addr < x.1 + x.2

def Legal (base : Nat) : Client → List Call → Prop
  | _, [] => True
  | c, call :: calls => call.Allowed c ∧ ∀ c' ∈ c.exec base call, Legal base c' calls

instance (c : Client) (ptr : Nat) : Decidable (Held c ptr) := inferInstanceAs (Decidable (_ ∨ _))

instance (c : Client) : DecidablePred (Call.Allowed c)
  | .kmalloc size => inferInstanceAs (Decidable (size + 47 < 2 ^ 64))
  | .kzalloc size => inferInstanceAs (Decidable (size + 47 < 2 ^ 64))
  | .krealloc ptr newSize => inferInstanceAs (Decidable (Held c ptr ∧ newSize + 47 < 2 ^ 64))
  | .kfree ptr => inferInstanceAs (Decidable (Held c ptr))
  | .write addr _ => inferInstanceAs (Decidable (∃ x ∈ c.live, x.1 ≤ addr ∧ addr < x.1 + x.2))

instance decidableLegal (base : Nat) : ∀ c calls, Decidable (Legal base c calls)
  | _, [] => isTrue trivial
  | c, call :: calls =>
    have := fun c' => decidableLegal base c' calls
    inferInstanceAs (Decidable (call.Allowed c ∧ ∀ c' ∈ c.exec base call, Legal base c' calls))

/-- The static data before `kmalloc_init` has run, over any memory. -/
def boot (base : Nat) (m : Mem) : Client := ⟨kmallocInit base ⟨m, 0, false, 0⟩, []⟩

/-- The list from `free_list` tiles the heap in address order, linked both ways; no two neighbours are free, and
the account is right. -/
def HeapInvariant (base : Nat) (h : Heap) : Prop :=
  ∃ bs : List Block,
    h.freeList = base ∧ Tiles Block.addr Block.size base bs (base + heapSize) ∧
    Seg (h.get .next) (h.get .prev) 0 (addrs bs) 0 ∧
    (∀ b ∈ bs, h.get .magic b.addr = blockMagic ∧ h.get .size b.addr = b.size ∧ h.get .free b.addr = b.mark) ∧
    NoFreePair bs ∧ h.heapUsed = headerSize + usedSize bs

def dataSize (h : Heap) (ptr : Nat) : Nat := h.get .size (ptr - headerSize) - headerSize

def AllocationsSafe (base : Nat) (c : Client) : Prop :=
  (∀ x ∈ c.live, base ≤ x.1 ∧ x.2 ≤ dataSize c.heap x.1 ∧ x.1 + dataSize c.heap x.1 ≤ base + heapSize) ∧
  c.live.Pairwise fun x y => x.1 + dataSize c.heap x.1 ≤ y.1 ∨ y.1 + dataSize c.heap y.1 ≤ x.1

section Holding

variable {base : Nat} {h : Heap} {bs bs' : List Block} {live : List (Nat × Nat)}

structure Holds (bs : List Block) (live : List (Nat × Nat)) : Prop where
  block : ∀ x ∈ live, ∃ b ∈ bs, b.used = true ∧ x.1 = b.addr + headerSize ∧ x.2 + headerSize ≤ b.size
  owned : ∀ b ∈ bs, b.used = true → ∃ x ∈ live, x.1 = b.addr + headerSize
  nodup : (live.map Prod.fst).Nodup

theorem Holds.ne_null (hHolds : Holds bs live) {x : Nat × Nat} (hx : x ∈ live) : x.1 ≠ 0 := by
  obtain ⟨b, -, -, hPtr, -⟩ := hHolds.block x hx
  simp only [headerSize] at hPtr
  omega

theorem Holds.release_null (hHolds : Holds bs live) : X64Heap.release live 0 = live := by
  apply List.filter_eq_self.mpr
  intro x hx
  simpa using hHolds.ne_null hx

theorem mem_release {x : Nat × Nat} {ptr : Nat} : x ∈ release live ptr ↔ x ∈ live ∧ x.1 ≠ ptr := by
  simp only [release, List.mem_filter, decide_eq_true_eq]

theorem Holds.request (hHolds : Holds bs live) {p size : Nat} (hYields : Yields bs bs' p size) :
    Holds bs' (hold live p size) := by
  obtain ⟨hNull, rfl, -⟩ | ⟨u, hUsed, hPtr, hSize, hFresh, hMem⟩ := hYields
  · rwa [hold, if_pos hNull]
  · have hp : p ≠ 0 := by
      simp only [headerSize] at hPtr
      omega
    rw [hold, if_neg hp]
    refine ⟨?_, ?_, ?_⟩
    · intro x hx
      obtain rfl | hx := List.mem_cons.mp hx
      · exact ⟨u, (hMem u hUsed).mpr (.inr rfl), hUsed, hPtr, hSize⟩
      · obtain ⟨b, hb, hbUsed, hbPtr, hbSize⟩ := hHolds.block x hx
        exact ⟨b, (hMem b hbUsed).mpr (.inl hb), hbUsed, hbPtr, hbSize⟩
    · intro b hb hbUsed
      obtain hOld | rfl := (hMem b hbUsed).mp hb
      · obtain ⟨x, hx, hxPtr⟩ := hHolds.owned b hOld hbUsed
        exact ⟨x, List.mem_cons_of_mem _ hx, hxPtr⟩
      · exact ⟨(p, size), List.mem_cons_self, hPtr⟩
    · rw [List.map_cons, List.nodup_cons]
      refine ⟨?_, hHolds.nodup⟩
      intro hIn
      obtain ⟨x, hx, hEq⟩ := List.mem_map.mp hIn
      obtain ⟨b, hb, hbUsed, hbPtr, -⟩ := hHolds.block x hx
      exact hFresh b hb hbUsed (Nat.add_right_cancel (hbPtr.symm.trans (hEq.trans hPtr)))

theorem Holds.release (hHolds : Holds bs live) {b : Block}
    (hMem : ∀ d : Block, d.used = true → (d ∈ bs' ↔ d ∈ bs ∧ d ≠ b)) (hAddr : ∀ d ∈ bs, d.addr = b.addr → d = b) :
    Holds bs' (release live (b.addr + headerSize)) := by
  refine ⟨?_, ?_, hHolds.nodup.sublist (List.Sublist.map _ List.filter_sublist)⟩
  · intro x hx
    obtain ⟨hx, hne⟩ := mem_release.mp hx
    obtain ⟨d, hd, hUsed, hPtr, hSize⟩ := hHolds.block x hx
    refine ⟨d, (hMem d hUsed).mpr ⟨hd, ?_⟩, hUsed, hPtr, hSize⟩
    rintro rfl
    exact hne hPtr
  · intro d hd hUsed
    obtain ⟨hOld, hne⟩ := (hMem d hUsed).mp hd
    obtain ⟨x, hx, hPtr⟩ := hHolds.owned d hOld hUsed
    refine ⟨x, mem_release.mpr ⟨hx, ?_⟩, hPtr⟩
    intro hSame
    exact hne (hAddr d hOld (Nat.add_right_cancel (hPtr.symm.trans hSame)))

theorem Holds.resized (hHolds : Holds bs live) {b : Block} {p newSize : Nat} (hb : b ∈ bs) (hUsed : b.used = true)
    (hPtr : p = b.addr + headerSize) (hFits : newSize + headerSize ≤ b.size) :
    Holds bs ((p, newSize) :: X64Heap.release live p) := by
  refine ⟨?_, ?_, ?_⟩
  · intro y hy
    obtain rfl | hy := List.mem_cons.mp hy
    · exact ⟨b, hb, hUsed, hPtr, hFits⟩
    · exact hHolds.block y (mem_release.mp hy).1
  · intro d hd hdUsed
    obtain ⟨x, hx, hxPtr⟩ := hHolds.owned d hd hdUsed
    by_cases hSame : x.1 = p
    · exact ⟨(p, newSize), List.mem_cons_self, hSame.symm.trans hxPtr⟩
    · exact ⟨x, List.mem_cons_of_mem _ (mem_release.mpr ⟨hx, hSame⟩), hxPtr⟩
  · rw [List.map_cons, List.nodup_cons]
    refine ⟨?_, hHolds.nodup.sublist (List.Sublist.map _ List.filter_sublist)⟩
    intro hMem
    obtain ⟨y, hy, hEq⟩ := List.mem_map.mp hMem
    exact (mem_release.mp hy).2 hEq

end Holding

section Data

variable {base : Nat} {h h' : Heap} {bs bs' : List Block} {b : Block} {live : List (Nat × Nat)}

theorem Consistent.writeData (c : Consistent base h bs) (hb : b ∈ bs) (hMem : ∀ x, ¬ b.HasData x → h'.mem x = h.mem x)
    (hGlobals : SameGlobals h' h) : Consistent base h' bs := by
  refine ⟨⟨?_, hGlobals.freeList.trans c.rep.head_eq, hGlobals.initialized.trans c.rep.initialized⟩, c.apart,
    hGlobals.used.trans c.used_eq⟩
  refine c.rep.shape.congr fun g a ha => get_congr fun x hLow hHigh => hMem x ?_
  rintro ⟨hDataLow, hDataHigh⟩
  have hOff := off_of_data c.rep.shape.tiles c.rep.shape.room hb hDataLow hDataHigh a ha
  rw [Layout.Off] at hOff
  omega

theorem Consistent.fillData (c : Consistent base h bs) (hb : b ∈ bs) {p n : Nat} (f : Nat → UInt8)
    (hLow : b.addr + headerSize ≤ p) (hHigh : p + n ≤ b.addr + b.size) :
    Consistent base { h with mem := fill h.mem p n f } bs := by
  refine c.writeData hb ?_ ⟨rfl, rfl, rfl⟩
  intro x hx
  rw [Block.HasData] at hx
  exact fill_outside (by omega)

theorem Consistent.copyData (c : Consistent base h bs) (hb : b ∈ bs) (dst src n : Nat)
    (hLow : b.addr + headerSize ≤ dst) (hHigh : dst + n ≤ b.addr + b.size) :
    Consistent base (copyData h dst src n) bs := by
  refine c.writeData hb ?_ ⟨rfl, rfl, rfl⟩
  intro x hx
  rw [Block.HasData] at hx
  exact copy_outside (by omega)

theorem kzalloc_spec (c : Consistent base h bs) {size : Nat} (hSize : size + 47 < 2 ^ 64) :
    ∃ h' p bs', kzalloc base h size = some (h', p) ∧ Consistent base h' bs' ∧ Yields bs bs' p size := by
  obtain ⟨h', p, bs', hRun, c', hYields, -⟩ := kmalloc_spec c hSize
  by_cases hp : p = 0
  · exact ⟨h', p, bs', by simp [kzalloc, hRun, hp], c', hYields⟩
  · refine ⟨zeroData h' p size, p, bs', by simp [kzalloc, hRun, hp], ?_, hYields⟩
    obtain ⟨hNull, -⟩ | ⟨u, hUsed, hPtr, hFits, -, hMem⟩ := hYields
    · exact absurd hNull hp
    · exact c'.fillData ((hMem u hUsed).mpr (.inr rfl)) (fun _ => 0) (Nat.le_of_eq hPtr.symm) (by omega)

theorem kfree_held (c : Consistent base h bs) (hHolds : Holds bs live) {p : Nat} (hp : p = 0 ∨ ∃ x ∈ live, x.1 = p) :
    ∃ bs', Consistent base (kfree h p) bs' ∧ Holds bs' (release live p) ∧
      ∀ d ∈ bs, d.used = true → d.addr + headerSize ≠ p →
        d ∈ bs' ∧ ∀ x, d.HasData x → (kfree h p).mem x = h.mem x := by
  obtain rfl | ⟨x, hx, rfl⟩ := hp
  · have hSame : kfree h 0 = h := if_pos rfl
    rw [hSame, hHolds.release_null]
    exact ⟨bs, c, hHolds, fun d hd _ _ => ⟨hd, fun _ _ => rfl⟩⟩
  · obtain ⟨b, hb, hUsed, hPtr, -⟩ := hHolds.block x hx
    obtain ⟨bs', c', hMem, hData⟩ := kfree_spec c hb hUsed
    rw [hPtr]
    refine ⟨bs', c', hHolds.release hMem fun d hd hAddr => c.rep.shape.tiles.eq_of_addr_eq hd hb hAddr, ?_⟩
    intro d hd hdUsed hne
    have hStays : d ∈ bs' := (hMem d hdUsed).mpr ⟨hd, fun hSame => hne (by rw [hSame])⟩
    exact ⟨hStays, hData d hStays hdUsed⟩

def Kept (h h' : Heap) (x : Nat × Nat) (q newSize : Nat) : Prop :=
  if q = 0 then ∀ i < x.2, h'.mem (x.1 + i) = h.mem (x.1 + i)
  else ∀ i < min x.2 newSize, h'.mem (q + i) = h.mem (x.1 + i)

theorem krealloc_held (c : Consistent base h bs) (hHolds : Holds bs live) {x : Nat × Nat} (hx : x ∈ live)
    {newSize : Nat} (hSome : newSize ≠ 0) (hSize : newSize + 47 < 2 ^ 64) :
    ∃ h' q bs', krealloc base h x.1 newSize = some (h', q) ∧ Consistent base h' bs' ∧
      Holds bs' (resize live x.1 q newSize) ∧ Kept h h' x q newSize := by
  have hNull := hHolds.ne_null hx
  obtain ⟨b, hb, hUsed, hPtr, hFits⟩ := hHolds.block x hx
  have hBounds := c.rep.shape.bounds hb
  have hRoom := c.rep.shape.room b hb
  have hHeap : heapSize = 67108864 := rfl
  have hOld : (h.get .size (x.1 - headerSize) + 2 ^ 64 - headerSize) % 2 ^ 64 = b.size - headerSize := by
    rw [hPtr, Nat.add_sub_cancel, (c.rep.shape.header b hb).size]
    omega
  by_cases hFit : newSize ≤ b.size - headerSize
  · -- the block already has the room: the same pointer, with its new size
    refine ⟨h, x.1, bs, by simp only [krealloc, if_neg hNull, if_neg hSome, hOld, if_pos hFit], c, ?_, ?_⟩
    · rw [resize, if_neg hNull, if_neg hSome, if_neg hNull]
      exact hHolds.resized hb hUsed hPtr (by omega)
    · rw [Kept, if_neg hNull]
      exact fun _ _ => rfl
  obtain ⟨h₁, q, bs₁, hRun, c₁, hYields, hData₁⟩ := kmalloc_spec c hSize
  have hHolds₁ := hHolds.request hYields
  by_cases hq : q = 0
  · refine ⟨h₁, q, bs₁, by simp only [krealloc, if_neg hNull, if_neg hSome, hOld, if_neg hFit, hRun, ne_eq, hq,
      not_true_eq_false, if_false], c₁, ?_, ?_⟩
    · rw [resize, if_neg hNull, if_neg hSome, if_pos hq]
      rwa [hold, if_pos hq] at hHolds₁
    · rw [Kept, if_pos hq]
      intro i hi
      exact hData₁ b hb hUsed _ ⟨by omega, by omega⟩
  obtain ⟨hBad, -⟩ | ⟨u, huUsed, huPtr, huFits, hFresh, hMem⟩ := hYields
  · exact absurd hBad hq
  have hu : u ∈ bs₁ := (hMem u huUsed).mpr (.inr rfl)
  have hb₁ : b ∈ bs₁ := (hMem b hUsed).mpr (.inl hb)
  have hne : b.addr ≠ u.addr := hFresh b hb hUsed
  have c₂ := c₁.copyData hu q x.1 (b.size - headerSize) (Nat.le_of_eq huPtr.symm) (by omega)
  rw [hold, if_neg hq] at hHolds₁
  obtain ⟨bs₃, c₃, hHolds₃, hRest⟩ := kfree_held c₂ hHolds₁ (p := x.1) (.inr ⟨x, List.mem_cons_of_mem _ hx, rfl⟩)
  refine ⟨_, q, bs₃, by simp only [krealloc, if_neg hNull, if_neg hSome, hOld, if_neg hFit, hRun, ne_eq, hq,
    not_false_eq_true, if_true], c₃, ?_, ?_⟩
  · have hqx : (q, newSize).1 ≠ x.1 := by
      intro hSame
      exact hne (Nat.add_right_cancel (hPtr.symm.trans (hSame.symm.trans huPtr)))
    rw [resize, if_neg hNull, if_neg hSome, if_neg hq]
    rwa [release, List.filter_cons_of_pos (by simpa using hqx)] at hHolds₃
  · rw [Kept, if_neg hq]
    intro i hi
    have hiOld : i < x.2 := Nat.lt_of_lt_of_le hi (Nat.min_le_left _ _)
    have hiNew : i < newSize := Nat.lt_of_lt_of_le hi (Nat.min_le_right _ _)
    have huData : u.HasData (q + i) := ⟨by omega, by omega⟩
    have hbData : b.HasData (x.1 + i) := ⟨by omega, by omega⟩
    have hCopied : copy h₁.mem q x.1 (b.size - headerSize) (q + i) = h₁.mem (x.1 + i) := by
      obtain hSame | hBefore | hBehind := c₁.rep.shape.tiles.eq_or_disjoint hb₁ hu
      · exact absurd (congrArg Block.addr hSame) hne
      · exact copy_apart (by omega) (by omega)
      · exact copy_inside (by omega) (by omega)
    calc (kfree (X64Heap.copyData h₁ q x.1 (b.size - headerSize)) x.1).mem (q + i)
        = copy h₁.mem q x.1 (b.size - headerSize) (q + i) :=
          (hRest u hu huUsed (by omega)).2 _ huData
      _ = h₁.mem (x.1 + i) := hCopied
      _ = h.mem (x.1 + i) := hData₁ b hb hUsed _ hbData

end Data

section Runs

variable {base : Nat}

def Sound (base : Nat) (c : Client) : Prop := ∃ bs, Consistent base c.heap bs ∧ Holds bs c.live

theorem krealloc_spec {h : Heap} {bs : List Block} {live : List (Nat × Nat)} (c : Consistent base h bs)
    (hHolds : Holds bs live) {p : Nat} (hp : p = 0 ∨ ∃ x ∈ live, x.1 = p) {newSize : Nat}
    (hSize : newSize + 47 < 2 ^ 64) :
    ∃ h' q bs', krealloc base h p newSize = some (h', q) ∧ Consistent base h' bs' ∧
      Holds bs' (resize live p q newSize) := by
  by_cases hNull : p = 0
  · obtain ⟨h', q, bs', hRun, c', hYields, -⟩ := kmalloc_spec c hSize
    refine ⟨h', q, bs', by rw [krealloc, if_pos hNull, hRun], c', ?_⟩
    rw [resize, if_pos hNull]
    exact hHolds.request hYields
  by_cases hZero : newSize = 0
  · obtain ⟨bs', c', hHolds', -⟩ := kfree_held c hHolds hp
    refine ⟨_, 0, bs', by rw [krealloc, if_neg hNull, if_pos hZero], c', ?_⟩
    rwa [resize, if_neg hNull, if_pos hZero]
  · obtain ⟨x, hx, rfl⟩ := hp.resolve_left hNull
    obtain ⟨h', q, bs', hRun, c', hHolds', -⟩ := krealloc_held c hHolds hx hZero hSize
    exact ⟨h', q, bs', hRun, c', hHolds'⟩

theorem Sound.exec {c : Client} (hSound : Sound base c) {call : Call} (hAllowed : call.Allowed c) :
    ∃ c', c.exec base call = some c' ∧ Sound base c' := by
  obtain ⟨bs, hC, hHolds⟩ := hSound
  cases call with
  | kmalloc size =>
    obtain ⟨h', p, bs', hRun, hC', hYields, -⟩ := kmalloc_spec hC hAllowed
    exact ⟨⟨h', hold c.live p size⟩, by rw [Client.exec, hRun]; rfl, bs', hC', hHolds.request hYields⟩
  | kzalloc size =>
    obtain ⟨h', p, bs', hRun, hC', hYields⟩ := kzalloc_spec hC hAllowed
    exact ⟨⟨h', hold c.live p size⟩, by rw [Client.exec, hRun]; rfl, bs', hC', hHolds.request hYields⟩
  | krealloc ptr newSize =>
    obtain ⟨h', q, bs', hRun, hC', hHolds'⟩ := krealloc_spec hC hHolds hAllowed.1 hAllowed.2
    exact ⟨⟨h', resize c.live ptr q newSize⟩, by rw [Client.exec, hRun]; rfl, bs', hC', hHolds'⟩
  | kfree ptr =>
    obtain ⟨bs', hC', hHolds', -⟩ := kfree_held hC hHolds hAllowed
    exact ⟨_, rfl, bs', hC', hHolds'⟩
  | write addr value =>
    obtain ⟨x, hx, hLow, hHigh⟩ := hAllowed
    obtain ⟨b, hb, -, hPtr, hSize⟩ := hHolds.block x hx
    exact ⟨_, rfl, bs, hC.fillData hb (fun _ => value) (by omega) (by omega), hHolds⟩

theorem Sound.run {c : Client} (hSound : Sound base c) {calls : List Call} (hLegal : Legal base c calls) :
    ∃ c', c.run base calls = some c' ∧ Sound base c' := by
  induction calls generalizing c with
  | nil => exact ⟨c, rfl, hSound⟩
  | cons call calls ih =>
    obtain ⟨hAllowed, hRest⟩ := hLegal
    obtain ⟨c', hExec, hSound'⟩ := hSound.exec hAllowed
    obtain ⟨c'', hRun, hFinal⟩ := ih hSound' (hRest c' hExec)
    exact ⟨c'', by rw [Client.run, hExec]; exact hRun, hFinal⟩

def whole (base : Nat) : Block := ⟨base, heapSize, false⟩

theorem boot_sound (hBase : 0 < base) (hTop : base + heapSize < 2 ^ 64) (m : Mem) : Sound base (boot base m) := by
  have hSpaced : block.Spaced [base] := by
    intro a ha b hb
    rw [List.mem_singleton.mp ha, List.mem_singleton.mp hb]
    exact .inl rfl
  have hb : base ∈ [base] := List.mem_singleton_self base
  have hLink : ∀ f, block.Fits f 0 := fun f => Nat.pow_pos (by decide)
  have hEdited := (((((Edited.refl [base] m).set hSpaced hb fits_magic).set hSpaced hb
    (fits_size (Nat.le_refl heapSize))).set hSpaced hb (fits_mark (whole base))).set hSpaced hb (hLink .next)).set
    hSpaced hb (hLink .prev)
  have hAgree : ∀ g, ∀ a ∈ addrs [whole base], (boot base m).heap.get g a = _ := fun g a ha => hEdited.agree g a ha
  refine ⟨[whole base], ⟨⟨?_, rfl, rfl⟩, List.isChain_singleton _, rfl⟩, ⟨?_, ?_, List.nodup_nil⟩⟩
  · refine Shape.congr ?_ hAgree
    refine ⟨hBase, hTop, ⟨rfl, (by decide : 0 < heapSize), rfl⟩, ?_, ?_, ?_, ?_, trivial⟩
    · intro b hb
      obtain rfl := List.mem_singleton.mp hb
      exact (by decide : headerSize ≤ heapSize)
    · intro b hb
      obtain rfl := List.mem_singleton.mp hb
      refine ⟨?_, ?_, ?_⟩ <;> simp [put, whole, Block.mark]
    · exact Function.update_self ..
    · simp [put, whole]
  · intro x hx
    cases hx
  · intro b hb hUsed
    obtain rfl := List.mem_singleton.mp hb
    cases hUsed

theorem Sound.heapInvariant {c : Client} (hSound : Sound base c) : HeapInvariant base c.heap := by
  obtain ⟨bs, hC, -⟩ := hSound
  refine ⟨bs, hC.rep.head_eq, hC.rep.shape.tiles, hC.rep.shape.links, ?_, hC.apart, hC.used_eq⟩
  intro b hb
  have hHeader := hC.rep.shape.header b hb
  exact ⟨hHeader.magic, hHeader.size, hHeader.free⟩

theorem Sound.allocationsSafe {c : Client} (hSound : Sound base c) : AllocationsSafe base c := by
  obtain ⟨bs, hC, hHolds⟩ := hSound
  have hData : ∀ b ∈ bs, dataSize c.heap (b.addr + headerSize) = b.size - headerSize := by
    intro b hb
    rw [dataSize, Nat.add_sub_cancel, (hC.rep.shape.header b hb).size]
  refine ⟨?_, ?_⟩
  · intro x hx
    obtain ⟨b, hb, -, hPtr, hSize⟩ := hHolds.block x hx
    have hBounds := hC.rep.shape.bounds hb
    rw [hPtr, hData b hb]
    omega
  · refine (List.pairwise_map.mp hHolds.nodup).imp_of_mem ?_
    intro x y hx hy hne
    obtain ⟨b, hb, -, hbPtr, -⟩ := hHolds.block x hx
    obtain ⟨d, hd, -, hdPtr, -⟩ := hHolds.block y hy
    have hbRoom := hC.rep.shape.room b hb
    have hdRoom := hC.rep.shape.room d hd
    rw [hbPtr, hdPtr, hData b hb, hData d hd]
    obtain rfl | hLow | hHigh := hC.rep.shape.tiles.eq_or_disjoint hb hd
    · exact absurd (hbPtr.trans hdPtr.symm) hne
    · left
      omega
    · right
      omega

theorem Consistent.eq_whole {h : Heap} {bs : List Block} (c : Consistent base h bs) (hFree : ∀ b ∈ bs, b.used = false) :
    bs = [whole base] := by
  have hTiles := c.rep.shape.tiles
  have hApart := c.apart
  cases bs with
  | nil =>
    have hEmpty : base = base + heapSize := hTiles
    simp only [heapSize] at hEmpty
    omega
  | cons b bs =>
    cases bs with
    | nil =>
      obtain ⟨hAddr, -, hEnd⟩ := hTiles
      have hSize : b.size = heapSize := Nat.add_left_cancel hEnd
      have hUsed := hFree b List.mem_cons_self
      obtain ⟨a, n, u⟩ := b
      obtain rfl : a = base := hAddr
      obtain rfl : n = heapSize := hSize
      obtain rfl : u = false := hUsed
      rfl
    | cons d bs =>
      obtain hb | hd := (List.isChain_cons_cons.mp hApart).1
      · rw [hFree b (by simp)] at hb
        cases hb
      · rw [hFree d (by simp)] at hd
        cases hd

structure OneBlock (base : Nat) (h : Heap) : Prop where
  head : h.freeList = base
  size : h.get .size base = heapSize
  free : h.get .free base = 1
  next : h.get .next base = 0
  prev : h.get .prev base = 0
  used : h.heapUsed = headerSize

theorem Sound.oneBlock {c : Client} (hSound : Sound base c) (hNone : c.live = []) :
    OneBlock base c.heap ∧ ∀ size, 0 < size → size + headerSize ≤ heapSize →
      ∃ h' p, kmalloc base c.heap size = some (h', p) ∧ p ≠ 0 := by
  obtain ⟨bs, hC, hHolds⟩ := hSound
  have hFree : ∀ b ∈ bs, b.used = false := by
    intro b hb
    by_contra hUsed
    obtain ⟨x, hx, -⟩ := hHolds.owned b hb (by simpa using hUsed)
    rw [hNone] at hx
    cases hx
  obtain rfl := hC.eq_whole hFree
  have hHeader := hC.rep.shape.header (whole base) List.mem_cons_self
  have hLinks := Shape.around (b := whole base) (show Shape base c.heap.get ([] ++ whole base :: []) from hC.rep.shape)
  refine ⟨⟨hC.rep.head_eq, hHeader.size, hHeader.free, hLinks.2, hLinks.1, hC.used_eq⟩, ?_⟩
  intro size hPos hFits
  have hHead : headerSize = 32 := rfl
  have hHeap : heapSize = 67108864 := rfl
  have hSmall : size + 47 < 2 ^ 64 := by omega
  obtain ⟨h', p, bs', hRun, -, hYields, -⟩ := kmalloc_spec hC hSmall
  refine ⟨h', p, hRun, ?_⟩
  obtain ⟨-, -, hFull⟩ | ⟨u, -, hPtr, -, -, -⟩ := hYields
  · have hTooBig : heapSize < (size + 15) / 16 * 16 + headerSize := hFull hPos (whole base) List.mem_cons_self rfl
    omega
  · omega

/-- Every legal sequence of calls returns and keeps the heap well formed and allocations apart; a resized allocation
keeps its bytes; and when nothing is held, the heap is one block again and serves every request that fits in it. -/
theorem kmalloc_runs (hBase : 0 < base) (hTop : base + heapSize < 2 ^ 64) (m : Mem) (calls : List Call)
    (hLegal : Legal base (boot base m) calls) :
    ∃ c, (boot base m).run base calls = some c ∧ HeapInvariant base c.heap ∧ AllocationsSafe base c ∧
      (∀ x ∈ c.live, ∀ newSize, newSize ≠ 0 → newSize + 47 < 2 ^ 64 →
        ∃ h' q, krealloc base c.heap x.1 newSize = some (h', q) ∧ Kept c.heap h' x q newSize) ∧
      (c.live = [] → OneBlock base c.heap ∧ ∀ size, 0 < size → size + headerSize ≤ heapSize →
        ∃ h' p, kmalloc base c.heap size = some (h', p) ∧ p ≠ 0) := by
  obtain ⟨c, hRun, hSound⟩ := (boot_sound hBase hTop m).run hLegal
  refine ⟨c, hRun, hSound.heapInvariant, hSound.allocationsSafe, ?_, hSound.oneBlock⟩
  obtain ⟨bs, hC, hHolds⟩ := hSound
  intro x hx newSize hSome hSize
  obtain ⟨h', q, bs', hResize, -, -, hKept⟩ := krealloc_held hC hHolds hx hSome hSize
  exact ⟨h', q, hResize, hKept⟩

theorem kmalloc_runs_example :
    let calls : List Call := [.kmalloc 100, .kzalloc 8, .write 0x200020 7, .kmalloc 40, .kfree 0x2000B0,
      .krealloc 0x200020 400, .kfree 0x2000E0, .kfree 0]
    Legal 0x200000 (boot 0x200000 fun _ => 0xAA) calls ∧
      ∃ c, (boot 0x200000 fun _ => 0xAA).run 0x200000 calls = some c ∧ HeapInvariant 0x200000 c.heap ∧
        AllocationsSafe 0x200000 c := by
  intro calls
  have hLegal : Legal 0x200000 (boot 0x200000 fun _ => 0xAA) calls := by decide +kernel
  obtain ⟨c, hRun, hInvariant, hSafe, -⟩ := kmalloc_runs (by decide) (by decide) (fun _ => 0xAA) calls hLegal
  exact ⟨hLegal, c, hRun, hInvariant, hSafe⟩

end Runs

end UnixOS.X64Heap
