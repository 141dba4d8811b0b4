import UnixOS.Mm.VmmCalls

/-! # Runs of the virtual memory manager

From the state that `vmm_init` leaves, or from the one before it, every order of calls keeps the tables
apart. So the kernel's table is a map of pages, the address spaces do not see each other, and none of
them has the mapping that the kernel runs from.
-/

namespace UnixOS.Paging

open TableForest BitFields

variable {img : Image} {s s' : Vmm}

/-! ### The first states -/

theorem reach_boot {mem : UInt64 → Nat → UInt64} {r : Option Nat} {p : List Nat} {t : UInt64}
    (h : (boot img mem).Reach img r p t) : r = none ∧ p = [] ∧ t = img.kernelPgd := by
  unfold Vmm.Reach Reaches at h
  cases r with
  | some mm => cases h
  | none =>
    cases p with
    | nil => exact ⟨rfl, rfl, (Option.some.inj h).symm⟩
    | cons i p =>
      have hClear : (boot img mem).tables img.kernelPgd i = 0 := by
        show Function.update mem img.kernelPgd _ img.kernelPgd i = 0
        rw [Function.update_self]
      rw [root, Option.bind_some, follow, hClear] at h
      cases h

theorem Inv.boot (img : Image) (mem : UInt64 → Nat → UInt64) : Inv img (boot img mem) where
  supply := ⟨List.not_mem_nil, fun _ _ _ _ => List.not_mem_nil, List.nodup_nil, fun _ hx => by cases hx⟩
  separated := by
    intro r r' p p' t _ _ h h'
    obtain ⟨rfl, rfl, -⟩ := reach_boot h
    obtain ⟨rfl, rfl, -⟩ := reach_boot h'
    exact ⟨rfl, rfl⟩
  known := by
    intro r p t _ h
    obtain ⟨-, -, rfl⟩ := reach_boot h
    exact List.mem_cons_self
  slots := fun _ _ => rfl
  inner := fun k p i t _ h => absurd (reach_boot h).1 (Option.some_ne_none k)
  marked := fun k p i t _ _ h => absurd (reach_boot h).1 (Option.some_ne_none k)

theorem Inv.write_block {q : List Nat} {i : Nat} {t pte : UInt64} (h : Inv img s) (hOwn : own none q)
    (hReach : s.Reach img none q t) (hOld : tableOf (s.tables t i) = none) (hNew : tableOf pte = none) :
    Inv img (s.write t i pte) ∧ (s.write t i pte).Reach img none q t := by
  have hChild : ∀ x j, tableOf ((s.write t i pte).tables x j) = tableOf (s.tables x j) := by
    intro x j
    show tableOf (setEntry s.tables t i pte x j) = _
    by_cases hHere : x = t ∧ j = i
    · rw [hHere.1, hHere.2, setEntry_self, hNew, hOld]
    · rw [setEntry_of_ne pte hHere]
  have hIff : ∀ {r q'}, own r q' → ∀ x, (s.write t i pte).Reach img r q' x ↔ s.Reach img r q' x :=
    fun hq x => reaches_congr own_closed (fun _ _ _ _ _ _ => hChild _ _) hq x
  -- no address space has this table
  have hSame : ∀ {k q' x}, own (some k) q' → s.Reach img (some k) q' x → ∀ j,
      (s.write t i pte).tables x j = s.tables x j := by
    intro k q' x hq hx j
    refine setEntry_of_ne pte ?_
    rintro ⟨rfl, -⟩
    exact absurd (h.separated _ _ _ _ x hq hOwn hx hReach).1 (Option.some_ne_none k)
  refine ⟨⟨⟨h.supply.kernel, h.supply.early, h.supply.fresh⟩, ?_, ?_, h.slots, ?_, ?_⟩, ?_⟩
  · exact h.separated.of_reaches fun _ _ x hq => hIff hq x
  · intro r q' x hq hx
    exact h.known r q' x hq ((hIff hq x).mp hx)
  · intro k q' j x hNext hx hValid
    have hq := own_closed _ q' j hNext
    have hx' := (hIff hq x).mp hx
    rw [hSame hq hx'] at hValid ⊢
    exact h.inner k q' j x hNext hx' hValid
  · intro k q' j x hq hLength hx hValid
    have hx' := (hIff hq x).mp hx
    rw [hSame hq hx'] at hValid ⊢
    exact h.marked k q' j x hq hLength hx' hValid
  · exact (hIff hOwn t).mpr hReach

def lowDevices : UInt64 :=
  (0 &&& pteAddrMask) ||| pteValid ||| pteBlock ||| pteAttrDevice ||| pteShNone ||| pteAccessed

def kernelBlock : UInt64 :=
  (0x40000000 &&& pteAddrMask) ||| pteValid ||| pteBlock ||| pteAttrNormal ||| pteShInner ||| pteAccessed

def highDevices : UInt64 :=
  (0x4000000000 &&& pteAddrMask) ||| pteValid ||| pteBlock ||| pteAttrDevice ||| pteShNone ||| pteAccessed

theorem booted_eq (img : Image) (mem : UInt64 → Nat → UInt64) : ∃ l1 s₁, Obtained img (boot img mem) l1 s₁ ∧
    booted img mem =
      (((s₁.link img.kernelPgd 0 l1).write l1 0 lowDevices).write l1 1 kernelBlock).write l1 256 highDevices := by
  have hIndex : pteIndex 0 0 = 0 := by decide
  cases hAlloc : (boot img mem).allocPageTable img with
  | mk new s₁ =>
    rcases (Inv.boot img mem).supply.allocPageTable hAlloc with ⟨rfl, -⟩ | ⟨c, rfl, hNew⟩
    · -- the first early table is there
      have hFirst : img.earlyTables[(boot img mem).earlyTableIndex]? = some _ :=
        List.getElem?_eq_getElem (i := 0) (by rw [img.count]; decide)
      unfold Vmm.allocPageTable at hAlloc
      rw [hFirst] at hAlloc
      cases hAlloc
    · refine ⟨c, s₁, hNew, ?_⟩
      unfold booted Vmm.vmmInit
      simp only [hAlloc, hIndex]
      rfl

section Booted

variable (img) (mem : UInt64 → Nat → UInt64)

theorem inv_booted : Inv img (booted img mem) := by
  obtain ⟨l1, s₁, hNew, hEq⟩ := booted_eq img mem
  have hBoot := Inv.boot img mem
  have hClear : (boot img mem).tables img.kernelPgd 0 = 0 := by
    show Function.update mem img.kernelPgd _ img.kernelPgd 0 = 0
    rw [Function.update_self]
  have hInvalid : pteIsValid ((boot img mem).tables img.kernelPgd 0) = false := by
    rw [hClear]
    rfl
  have hOwn : own none ([] ++ [0]) := Nat.le_add_left 1 2
  have hLinked := (hBoot.link_reach hNew hOwn reach_kernel hInvalid hOwn l1).mpr (Or.inr ⟨rfl, rfl, rfl⟩)
  have hInv := hBoot.link hNew hOwn reach_kernel hInvalid
  have hNe : l1 ≠ img.kernelPgd := fun h => hNew.unused (h ▸ List.mem_cons_self)
  have hZero : ∀ i, (s₁.link img.kernelPgd 0 l1).tables l1 i = 0 := by
    intro i
    rw [hNew.link_tables, install_new hNe]
  have hLow : tableOf lowDevices = none := by decide
  have hKernel : tableOf kernelBlock = none := by decide
  have hHigh : tableOf highDevices = none := by decide
  have hNone₁ : tableOf ((s₁.link img.kernelPgd 0 l1).tables l1 0) = none := by
    rw [hZero]
    rfl
  have hStep₁ := hInv.write_block hOwn hLinked hNone₁ hLow
  have hNone₂ : tableOf (((s₁.link img.kernelPgd 0 l1).write l1 0 lowDevices).tables l1 1) = none := by
    show tableOf (setEntry _ l1 0 lowDevices l1 1) = none
    rw [setEntry_of_ne _ (by simp), hZero]
    rfl
  have hStep₂ := hStep₁.1.write_block hOwn hStep₁.2 hNone₂ hKernel
  have hNone₃ : tableOf ((((s₁.link img.kernelPgd 0 l1).write l1 0 lowDevices).write l1 1
      kernelBlock).tables l1 256) = none := by
    show tableOf (setEntry (setEntry _ l1 0 lowDevices) l1 1 kernelBlock l1 256) = none
    rw [setEntry_of_ne _ (by simp), setEntry_of_ne _ (by simp), hZero]
    rfl
  have hStep₃ := hStep₂.1.write_block hOwn hStep₂.2 hNone₃ hHigh
  rw [hEq]
  exact hStep₃.1

def KernelArea (vaddr : UInt64) : Prop := 0x40000000 ≤ vaddr.toNat ∧ vaddr.toNat < 0x80000000

instance (vaddr : UInt64) : Decidable (KernelArea vaddr) := inferInstanceAs (Decidable (_ ∧ _))

theorem path_of_kernelArea {vaddr : UInt64} (h : KernelArea vaddr) : path vaddr = [0, 1, pteIndex vaddr 2] := by
  unfold path
  rw [pteIndex_eq vaddr (by decide : 0 ≤ 3), pteIndex_eq vaddr (by decide : 1 ≤ 3)]
  obtain ⟨hLow, hHigh⟩ := h
  have h₀ : vaddr.toNat / 2 ^ (39 - 9 * 0) % 512 = 0 := by omega
  have h₁ : vaddr.toNat / 2 ^ (39 - 9 * 1) % 512 = 1 := by omega
  rw [h₀, h₁]

theorem booted_translate {vaddr : UInt64} (h : KernelArea vaddr) :
    (booted img mem).translate img.kernelPgd vaddr = some (kernelBlock, 2) := by
  obtain ⟨l1, s₁, hNew, hEq⟩ := booted_eq img mem
  have hNe : img.kernelPgd ≠ l1 := fun h => hNew.unused (h ▸ List.mem_cons_self)
  have hFirst : (booted img mem).tables img.kernelPgd 0 = physToPte l1 (pteValid ||| pteTable) := by
    rw [hEq]
    show setEntry (setEntry (setEntry (setEntry _ _ _ _) l1 _ _) l1 _ _) l1 _ _ img.kernelPgd 0 = _
    rw [setEntry_of_ne _ fun h => hNe h.1, setEntry_of_ne _ fun h => hNe h.1, setEntry_of_ne _ fun h => hNe h.1,
      setEntry_self]
  have hSecond : (booted img mem).tables l1 1 = kernelBlock := by
    rw [hEq]
    show setEntry (setEntry _ l1 1 _) l1 256 _ l1 1 = _
    rw [setEntry_of_ne _ (by simp), setEntry_self]
  rw [translate_def, path_of_kernelArea h, resolve, hFirst, tableOf_physToPte hNew.aligned]
  show resolve tableOf pteIsValid (booted img mem).tables l1 [1, pteIndex vaddr 2] (pteIndex vaddr 3) = _
  rw [resolve, hSecond]
  rfl

end Booted

/-! ### Steps -/

theorem Inv.given (h : Inv img s) {pages : List UInt64} (hFresh : Fresh img s.allocated pages) :
    Inv img (s.given pages) :=
  ⟨⟨h.supply.kernel, h.supply.early, hFresh⟩, h.separated, h.known, h.slots, h.inner, h.marked⟩

theorem Inv.run (h : Inv img s) (c : Call) : Inv img (c.run img s) := by
  cases c with
  | mapPage vaddr paddr flags => exact (h.vmmMapPage rfl).1
  | unmapPage vaddr => exact (h.vmmUnmapPage rfl).1
  | createAddressSpace => exact (h.vmmCreateAddressSpace rfl).1
  | mapUserPage mm vaddr paddr flags => exact (h.vmmMapUserPage rfl).1
  | mapUserRange mm vaddr size flags => exact (h.mapUserPages rfl).1

theorem Run.inv (h : Run img s s') (hInv : Inv img s) : Inv img s' := by
  induction h with
  | refl => exact hInv
  | call c pages _ hFresh ih => exact ((ih.given hFresh)).run c

theorem Reachable.inv (h : Reachable img s) : Inv img s := by
  obtain ⟨mem, hRun | hRun⟩ := h
  · exact hRun.inv (Inv.boot img mem)
  · exact hRun.inv (inv_booted img mem)

/-! ### The kernel's table as a map of pages -/

theorem toNat_and_pageMask (x : UInt64) : (x &&& ~~~(pageSize - 1)).toNat = x.toNat / 4096 * 4096 :=
  @toNat_and_not_low x 12 _ (by decide) (by decide)

def SamePage (u v : UInt64) : Prop := u.toNat / 4096 = v.toNat / 4096

theorem indices_of_samePage {u v : UInt64} (h : SamePage u v) :
    path u = path v ∧ pteIndex u 3 = pteIndex v 3 := by
  unfold SamePage at h
  have hLevel : ∀ level, level ≤ 3 → pteIndex u level = pteIndex v level := by
    intro level hl
    have hSplit : ∀ x : Nat, x / 2 ^ (39 - 9 * level) = x / 4096 / 2 ^ (27 - 9 * level) := by
      intro x
      rw [Nat.div_div_eq_div_mul, show 4096 = 2 ^ 12 by rfl, ← Nat.pow_add]
      congr 2
      omega
    rw [pteIndex_eq u hl, pteIndex_eq v hl, hSplit, hSplit, h]
  unfold path
  rw [hLevel 0 (by decide), hLevel 1 (by decide), hLevel 2 (by decide), hLevel 3 (by decide)]
  exact ⟨rfl, rfl⟩

theorem samePage_of_indices {u v : UInt64} (hu : u.toNat < 2 ^ 48) (hv : v.toNat < 2 ^ 48)
    (hPath : path u = path v) (hLast : pteIndex u 3 = pteIndex v 3) : SamePage u v := by
  unfold path at hPath
  simp only [List.cons.injEq, and_true] at hPath
  obtain ⟨h₀, h₁, h₂⟩ := hPath
  rw [pteIndex_eq u (by decide), pteIndex_eq v (by decide)] at h₀ h₁ h₂ hLast
  unfold SamePage
  omega

theorem translate_of_indices {u v : UInt64} (hPath : path u = path v) (hLast : pteIndex u 3 = pteIndex v 3)
    (pgd : UInt64) : s.translate pgd u = s.translate pgd v := by
  rw [translate_def, translate_def, hPath, hLast]

theorem translate_of_samePage {u v : UInt64} (h : SamePage u v) (pgd : UInt64) :
    s.translate pgd u = s.translate pgd v :=
  translate_of_indices (indices_of_samePage h).1 (indices_of_samePage h).2 pgd

def SameWalk (img : Image) (s s' : Vmm) (u : UInt64) : Prop :=
  s'.translate img.kernelPgd u = s.translate img.kernelPgd u ∧ s'.vmmVirtToPhys img u = s.vmmVirtToPhys img u

theorem sameWalk_of_translate {u : UInt64} (h : s'.translate img.kernelPgd u = s.translate img.kernelPgd u) :
    SameWalk img s s' u := by
  refine ⟨h, ?_⟩
  rw [vmmVirtToPhys_eq, vmmVirtToPhys_eq, h]

theorem SameWalk.of_given {pages : List UInt64} {u : UInt64} (h : SameWalk img (s.given pages) s' u) :
    SameWalk img s s' u := sameWalk_of_translate h.1

theorem Quiet.sameWalk (h : Quiet img s s') (u : UInt64) : SameWalk img s s' u :=
  sameWalk_of_translate (h.resolve none _ _ _ rfl (own_path_kernel u) rfl)

structure Grants (pte : UInt64) (flags : UInt32) : Prop where
  user : pte &&& pteUser ≠ 0 ↔ flags &&& vmUser ≠ 0
  write : pte &&& pteRdonly = 0 ↔ flags &&& vmWrite ≠ 0
  exec : pte &&& (if flags &&& vmUser ≠ 0 then pteUxn else ptePxn) = 0 ↔ flags &&& vmExec ≠ 0
  device : pte &&& pteAttrDevice ≠ 0 ↔ flags &&& vmDevice ≠ 0

theorem vmFlagsToPte_grants (flags : UInt32) : Grants (vmFlagsToPte flags) flags := by
  unfold vmFlagsToPte
  dsimp only
  constructor
  all_goals
    by_cases hDevice : flags &&& vmDevice = 0
    all_goals by_cases hUser : flags &&& vmUser = 0
    all_goals by_cases hWrite : flags &&& vmWrite = 0
    all_goals by_cases hExec : flags &&& vmExec = 0
    all_goals simp only [hDevice, hUser, hWrite, hExec, ne_eq, not_true, not_false_iff, if_true, if_false]
    all_goals decide

theorem physToPte_grants (paddr : UInt64) (flags : UInt32) :
    Grants (physToPte paddr (vmFlagsToPte flags)) flags := by
  have h := vmFlagsToPte_grants flags
  have hBit : ∀ bit, pteAddrMask &&& bit = 0 →
      physToPte paddr (vmFlagsToPte flags) &&& bit = vmFlagsToPte flags &&& bit := by
    intro bit hOutside
    rw [physToPte, masked_or_and, hOutside, UInt64.and_zero, UInt64.zero_or]
  refine ⟨?_, ?_, ?_, ?_⟩
  · rw [hBit _ (by decide)]
    exact h.user
  · rw [hBit _ (by decide)]
    exact h.write
  · rw [hBit _ (by split_ifs <;> decide)]
    exact h.exec
  · rw [hBit _ (by decide)]
    exact h.device

structure MapResult (img : Image) (s s' : Vmm) (vaddr paddr : UInt64) (flags : UInt32) (ret : Int) : Prop where
  mapped : ret = 0 → ∀ u, SamePage u vaddr → ∃ pte, s'.translate img.kernelPgd u = some (pte, 0) ∧
    pteToPhys pte = paddr &&& pteAddrMask ∧ Grants pte flags ∧
    s'.vmmVirtToPhys img u = (paddr &&& pteAddrMask) ||| (u &&& (pageSize - 1))
  others : ret = 0 → ∀ u, u.toNat < 2 ^ 48 → ¬ SamePage u vaddr → SameWalk img s s' u
  failed : ret ≠ 0 → ∀ u, SameWalk img s s' u
  taken : s.translate img.kernelPgd vaddr ≠ none → ret ≠ 0

structure UnmapResult (img : Image) (s s' : Vmm) (vaddr : UInt64) (ret : Int) : Prop where
  unmapped : ret = 0 → ∀ u, SamePage u vaddr → s'.translate img.kernelPgd u = none
  others : ret = 0 → ∀ u, u.toNat < 2 ^ 48 → ¬ SamePage u vaddr → SameWalk img s s' u
  failed : ret ≠ 0 → ∀ u, SameWalk img s s' u
  absent : s.translate img.kernelPgd vaddr = none → ret ≠ 0

theorem Sets.sameWalk {vaddr pte : UInt64} (h : Sets img s s' none (path vaddr) (pteIndex vaddr 3) pte)
    (hv : vaddr.toNat < 2 ^ 48) {u : UInt64} (hu : u.toNat < 2 ^ 48) (hOther : ¬ SamePage u vaddr) :
    SameWalk img s s' u := by
  refine sameWalk_of_translate (h.others none _ _ _ rfl (own_path_kernel u) rfl ?_)
  rintro ⟨-, hPath, hLast⟩
  exact hOther (samePage_of_indices hu hv hPath hLast)

theorem Sets.translate_self {vaddr pte : UInt64} (h : Sets img s s' none (path vaddr) (pteIndex vaddr 3) pte)
    {u : UInt64} (hu : SamePage u vaddr) :
    s'.translate img.kernelPgd u = if pteIsValid pte then some (pte, 0) else none := by
  rw [translate_of_samePage hu, translate_def]
  exact h.self img.kernelPgd rfl

theorem Inv.mapResult (h : Inv img s) {vaddr : UInt64} (hv : vaddr.toNat < 2 ^ 48) (paddr : UInt64)
    (flags : UInt32) :
    MapResult img s (s.vmmMapPage img vaddr paddr flags).2 vaddr paddr flags
      (s.vmmMapPage img vaddr paddr flags).1 := by
  obtain ⟨hValid, hPhys, -⟩ := physToPte_vmFlagsToPte paddr flags
  rcases (h.vmmMapPage (Prod.eta (s.vmmMapPage img vaddr paddr flags)).symm).2 with
    ⟨hRet, hNone, hSets⟩ | ⟨hRet, hQuiet⟩
  · refine ⟨fun _ u hu => ?_, fun _ u hu hOther => hSets.sameWalk hv hu hOther, ?_, ?_⟩
    · have hWalk := hSets.translate_self hu
      rw [hValid, if_pos rfl] at hWalk
      refine ⟨_, hWalk, hPhys, physToPte_grants paddr flags, ?_⟩
      rw [vmmVirtToPhys_eq, hWalk, ← hPhys]
      rfl
    · exact fun hFail => absurd hRet hFail
    · exact fun hTaken => absurd hNone hTaken
  · have hNe : (s.vmmMapPage img vaddr paddr flags).1 ≠ 0 := by
      rw [hRet]
      decide
    exact ⟨fun hOk => absurd hOk hNe, fun hOk => absurd hOk hNe, fun _ u => hQuiet.sameWalk u, fun _ => hNe⟩

theorem Inv.unmapResult (h : Inv img s) {vaddr : UInt64} (hv : vaddr.toNat < 2 ^ 48) :
    UnmapResult img s (s.vmmUnmapPage img vaddr).2 vaddr (s.vmmUnmapPage img vaddr).1 := by
  rcases (h.vmmUnmapPage (Prod.eta (s.vmmUnmapPage img vaddr)).symm).2 with
    ⟨hRet, ⟨pte, hSome⟩, hSets⟩ | ⟨hRet, hSame⟩
  · refine ⟨fun _ u hu => hSets.translate_self hu, fun _ u hu hOther => hSets.sameWalk hv hu hOther, ?_, ?_⟩
    · exact fun hFail => absurd hRet hFail
    · intro hNone
      rw [hNone] at hSome
      cases hSome
  · have hNe : (s.vmmUnmapPage img vaddr).1 ≠ 0 := by
      rw [hRet]
      decide
    refine ⟨fun hOk => absurd hOk hNe, fun hOk => absurd hOk hNe, fun _ u => ?_, fun _ => hNe⟩
    rw [hSame]
    exact ⟨rfl, rfl⟩

/-- After every run, with every new table that the allocator may hand out, the two calls act on the
kernel's table as on a map of pages. -/
theorem kernel_table_is_map (hs : Reachable img s) {pages : List UInt64} (hFresh : Fresh img s.allocated pages)
    {vaddr : UInt64} (hv : vaddr.toNat < 2 ^ 48) (paddr : UInt64) (flags : UInt32) :
    MapResult img s ((s.given pages).vmmMapPage img vaddr paddr flags).2 vaddr paddr flags
        ((s.given pages).vmmMapPage img vaddr paddr flags).1 ∧
      UnmapResult img s ((s.given pages).vmmUnmapPage img vaddr).2 vaddr
        ((s.given pages).vmmUnmapPage img vaddr).1 := by
  have hInv := hs.inv.given hFresh
  have hMap := hInv.mapResult hv paddr flags
  have hUnmap := hInv.unmapResult hv
  refine ⟨⟨hMap.mapped, ?_, ?_, hMap.taken⟩, ⟨hUnmap.unmapped, ?_, ?_, hUnmap.absent⟩⟩
  · exact fun hOk u hu hOther => (hMap.others hOk u hu hOther).of_given
  · exact fun hFail u => (hMap.failed hFail u).of_given
  · exact fun hOk u hu hOther => (hUnmap.others hOk u hu hOther).of_given
  · exact fun hFail u => (hUnmap.failed hFail u).of_given

def sampleImage : Image where
  kernelPgd := 0x1000
  earlyTables := [0x2000, 0x3000, 0x4000, 0x5000]
  count := rfl
  nodup := by decide
  aligned := by
    simp only [List.forall_mem_cons]
    exact ⟨by decide, by decide, by decide, by decide, by decide, List.forall_mem_nil _⟩

theorem kernel_table_is_map_first_page :
    MapResult sampleImage (boot sampleImage fun _ _ => 0)
        (((boot sampleImage fun _ _ => 0).given [0x6000]).vmmMapPage sampleImage 0x8000000000 0x9000 vmWrite).2
        0x8000000000 0x9000 vmWrite
        (((boot sampleImage fun _ _ => 0).given [0x6000]).vmmMapPage sampleImage 0x8000000000 0x9000 vmWrite).1 ∧
      (((boot sampleImage fun _ _ => 0).given [0x6000]).vmmMapPage sampleImage 0x8000000000 0x9000 vmWrite).1 = 0 := by
  have hReach : Reachable sampleImage (boot sampleImage fun _ _ => 0) := ⟨_, Or.inl (Run.refl _)⟩
  refine ⟨(kernel_table_is_map hReach ?_ ?_ 0x9000 vmWrite).1, ?_⟩
  · decide
  · decide
  · decide +kernel

/-! ### Address spaces -/

/-- The kernel's translations, and those of the user addresses in every address space but `mm`, are what
they were. -/
structure Apart (img : Image) (s s' : Vmm) (mm : Option Nat) : Prop where
  kernel : ∀ u, SameWalk img s s' u
  spaces : ∀ k a, some k ≠ mm → s.pgd k = some a → s'.pgd k = some a ∧
    ∀ u, u < userVmaEnd → s'.translate a u = s.translate a u

theorem Within.apart {mm : Nat} (h : Within img s s' mm) : Apart img s s' (some mm) where
  kernel := fun u => sameWalk_of_translate
    (h.others none _ _ _ (Option.some_ne_none mm).symm rfl (own_path_kernel u) rfl)
  spaces := by
    intro k a hk ha
    refine ⟨h.pgd ▸ ha, fun u hu => ?_⟩
    exact h.others (some k) a _ _ hk ha (own_path_user k hu) rfl

theorem Keeps.apart (h : Keeps img s s') : Apart img s s' none where
  kernel := fun u => sameWalk_of_translate (h.resolve none _ _ _ rfl (own_path_kernel u) rfl)
  spaces := by
    intro k a _ ha
    exact ⟨h.roots (some k) a ha, fun u hu => h.resolve (some k) a _ _ ha (own_path_user k hu) rfl⟩

theorem Apart.of_given {pages : List UInt64} {mm : Option Nat} (h : Apart img (s.given pages) s' mm) :
    Apart img s s' mm := ⟨fun u => (h.kernel u).of_given, h.spaces⟩

theorem Inv.mapUserPage_only (h : Inv img s) (mm : Nat) (vaddr paddr : UInt64) (flags : UInt32) :
    Within img s (s.vmmMapUserPage img mm vaddr paddr flags).2 mm ∧ ∀ a, s.pgd mm = some a →
      ∀ u, u < userVmaEnd → ¬ SamePage u vaddr →
        (s.vmmMapUserPage img mm vaddr paddr flags).2.translate a u = s.translate a u := by
  have hBound : ∀ {x : UInt64}, x < userVmaEnd → x.toNat < 2 ^ 48 := by
    intro x hx
    have hLt : x.toNat < 2 ^ 47 := UInt64.lt_iff_toNat_lt.mp hx
    omega
  rcases (h.vmmMapUserPage (Prod.eta (s.vmmMapUserPage img mm vaddr paddr flags)).symm).2 with
    ⟨-, hUser, hSets⟩ | ⟨-, hQuiet⟩
  · refine ⟨hSets.within, fun a ha u hu hOther => ?_⟩
    refine hSets.others (some mm) a _ _ ha (own_path_user mm hu) rfl ?_
    rintro ⟨-, hPath, hLast⟩
    exact hOther (samePage_of_indices (hBound hu) (hBound hUser) hPath hLast)
  · refine ⟨hQuiet.within mm, fun a ha u hu _ => ?_⟩
    exact hQuiet.resolve (some mm) a _ _ ha (own_path_user mm hu) rfl

/-! ### The memory that the kernel runs from -/

theorem Inv.run_block (h : Inv img s) (c : Call) {u pte : UInt64} {n : Nat}
    (hBlock : s.translate img.kernelPgd u = some (pte, n + 1)) :
    (c.run img s).translate img.kernelPgd u = some (pte, n + 1) := by
  have hOwn := own_path_kernel u
  rw [← hBlock]
  cases c with
  | mapPage vaddr paddr flags =>
    rcases (h.vmmMapPage (Prod.eta (s.vmmMapPage img vaddr paddr flags)).symm).2 with
      ⟨-, hNone, hSets⟩ | ⟨-, hQuiet⟩
    · refine hSets.others none _ _ _ rfl hOwn rfl ?_
      rintro ⟨-, hPath, hLast⟩
      rw [← translate_of_indices hPath hLast, hBlock] at hNone
      cases hNone
    · exact hQuiet.resolve none _ _ _ rfl hOwn rfl
  | unmapPage vaddr =>
    rcases (h.vmmUnmapPage (Prod.eta (s.vmmUnmapPage img vaddr)).symm).2 with
      ⟨-, ⟨pte', hSome⟩, hSets⟩ | ⟨-, hSame⟩
    · refine hSets.others none _ _ _ rfl hOwn rfl ?_
      rintro ⟨-, hPath, hLast⟩
      rw [← translate_of_indices hPath hLast, hBlock] at hSome
      cases hSome
    · exact congrArg (fun x => Vmm.translate x img.kernelPgd u) hSame
  | createAddressSpace => exact ((h.vmmCreateAddressSpace (Prod.eta _).symm).2.1.apart.kernel u).1
  | mapUserPage mm vaddr paddr flags => exact ((h.mapUserPage_only mm vaddr paddr flags).1.apart.kernel u).1
  | mapUserRange mm vaddr size flags => exact ((h.mapUserPages (Prod.eta _).symm).2.apart.kernel u).1

theorem Inv.run_pgd (h : Inv img s) (c : Call) {mm : Nat} {a : UInt64} (ha : s.pgd mm = some a) :
    (c.run img s).pgd mm = some a := by
  cases c with
  | mapPage vaddr paddr flags =>
    rcases (h.vmmMapPage (Prod.eta (s.vmmMapPage img vaddr paddr flags)).symm).2 with
      ⟨-, -, hSets⟩ | ⟨-, hQuiet⟩
    · exact (congrFun hSets.pgd mm).trans ha
    · exact (congrFun hQuiet.pgd mm).trans ha
  | unmapPage vaddr =>
    rcases (h.vmmUnmapPage (Prod.eta (s.vmmUnmapPage img vaddr)).symm).2 with ⟨-, -, hSets⟩ | ⟨-, hSame⟩
    · exact (congrFun hSets.pgd mm).trans ha
    · exact (congrArg (fun x => Vmm.pgd x mm) hSame).trans ha
  | createAddressSpace => exact (h.vmmCreateAddressSpace (Prod.eta _).symm).2.1.roots (some mm) a ha
  | mapUserPage mm' vaddr paddr flags =>
    exact (congrFun (h.mapUserPage_only mm' vaddr paddr flags).1.pgd mm).trans ha
  | mapUserRange mm' vaddr size flags => exact (congrFun (h.mapUserPages (Prod.eta _).symm).2.pgd mm).trans ha

theorem Run.block (h : Run img s s') (hInv : Inv img s) {u pte : UInt64} {n : Nat}
    (hBlock : s.translate img.kernelPgd u = some (pte, n + 1)) :
    s'.translate img.kernelPgd u = some (pte, n + 1) := by
  induction h with
  | refl => exact hBlock
  | call c pages hBefore hFresh ih => exact ((hBefore.inv hInv).given hFresh).run_block c ih

theorem Run.pgd (h : Run img s s') (hInv : Inv img s) {mm : Nat} {a : UInt64} (ha : s.pgd mm = some a) :
    s'.pgd mm = some a := by
  induction h with
  | refl => exact ha
  | call c pages hBefore hFresh ih => exact ((hBefore.inv hInv).given hFresh).run_pgd c ih

theorem Inv.user_pxn (h : Inv img s) {mm : Nat} {a u pte : UInt64} {n : Nat} (ha : s.pgd mm = some a)
    (hu : u < userVmaEnd) (hSome : s.translate a u = some (pte, n)) : pte &&& ptePxn ≠ 0 := by
  have hOwn := own_path_user mm hu
  have hReach : ∀ {q c}, follow tableOf s.tables a q = some c → s.Reach img (some mm) q c := by
    intro q c hc
    unfold Vmm.Reach Reaches
    rw [root, ha]
    exact hc
  rcases resolve_cases hSome with ⟨c, hc, rfl, hValid, -⟩ | ⟨q, j, c, hPrefix, hc, hNone, hValid⟩
  · exact h.marked mm _ _ c hOwn rfl (hReach hc) hValid
  · have hTable := h.inner mm q j c (own_of_isPrefix own_closed hOwn hPrefix) (hReach hc) hValid
    rw [tableOf, if_pos hTable] at hNone
    cases hNone

theorem hwTranslate_kernelBlock {u : UInt64} (hu : KernelArea u)
    (hBlock : s.translate img.kernelPgd u = some (kernelBlock, 2)) :
    s.hwTranslate img.kernelPgd u = some (u, pteValid ||| pteShInner ||| pteAccessed) := by
  have hAddr : pteToPhys kernelBlock ||| (u &&& UInt64.ofNat (2 ^ (12 + 9 * 2) - 1)) = u := by
    apply UInt64.toNat_inj.mp
    rw [UInt64.toNat_or, UInt64.toNat_and, show (pteToPhys kernelBlock).toNat = 2 ^ 30 * 1 by decide,
      show (UInt64.ofNat (2 ^ (12 + 9 * 2) - 1)).toNat = 2 ^ 30 - 1 by decide,
      Nat.and_two_pow_sub_one_eq_mod, ← Nat.two_pow_add_eq_or_of_lt (Nat.mod_lt _ (by decide))]
    obtain ⟨hLow, hHigh⟩ := hu
    omega
  unfold Vmm.hwTranslate
  rw [hBlock, Option.map_some]
  dsimp only
  rw [hAddr]
  rfl

/-- What the kernel translates where it runs from is translated in the same way below `pgd`. -/
def KeepsKernel (img : Image) (s s' : Vmm) (pgd : UInt64) : Prop :=
  ∀ u, KernelArea u → s.hwTranslate img.kernelPgd u ≠ none → s'.hwTranslate pgd u = s.hwTranslate img.kernelPgd u

/-- No address space has the kernel's mapping of itself: nothing is mapped there when the space is made,
and what is mapped there later the kernel may not execute. -/
theorem kernel_area_lost {mem : UInt64 → Nat → UInt64} {s₁ s₂ : Vmm} {pages : List UInt64} {mm : Nat}
    (hRun : Run img (booted img mem) s) (hFresh : Fresh img s.allocated pages)
    (hCreate : (s.given pages).vmmCreateAddressSpace img = (some mm, s₁)) (hLater : Run img s₁ s₂) :
    ∃ a, s₁.pgd mm = some a ∧ s₂.pgd mm = some a ∧ ¬ KeepsKernel img s s₂ a ∧
      ∀ u, KernelArea u → s.hwTranslate img.kernelPgd u = some (u, pteValid ||| pteShInner ||| pteAccessed) ∧
        s₁.hwTranslate a u = none ∧ s₂.hwTranslate a u ≠ s.hwTranslate img.kernelPgd u := by
  have hInv : Inv img s := hRun.inv (inv_booted img mem)
  obtain ⟨hInv₁, -, hNew⟩ := (hInv.given hFresh).vmmCreateAddressSpace hCreate
  obtain ⟨-, a, ha, hEmpty⟩ := hNew mm rfl
  have ha₂ := hLater.pgd hInv₁ ha
  have hInv₂ := hLater.inv hInv₁
  have hUser : ∀ {u}, KernelArea u → u < userVmaEnd := by
    intro u hu
    refine UInt64.lt_iff_toNat_lt.mpr (lt_trans hu.2 ?_)
    decide
  have hAll : ∀ u, KernelArea u →
      s.hwTranslate img.kernelPgd u = some (u, pteValid ||| pteShInner ||| pteAccessed) ∧
        s₁.hwTranslate a u = none ∧ s₂.hwTranslate a u ≠ s.hwTranslate img.kernelPgd u := by
    intro u hu
    have hKernel := hwTranslate_kernelBlock hu (hRun.block (inv_booted img mem) (booted_translate img mem hu))
    refine ⟨hKernel, ?_, ?_⟩
    · have hNone : s₁.translate a u = none := hEmpty _ _ (own_path_user mm (hUser hu)) rfl
      rw [Vmm.hwTranslate, hNone]
      rfl
    · rw [hKernel, Vmm.hwTranslate]
      intro hSame
      obtain ⟨⟨pte, n⟩, hSome, hEq⟩ := Option.map_eq_some_iff.mp hSame
      have hAttr : pte &&& ~~~(pteAddrMask ||| pteTable) = pteValid ||| pteShInner ||| pteAccessed :=
        (Prod.mk.inj hEq).2
      have hPxn := hInv₂.user_pxn ha₂ (hUser hu) hSome
      apply hPxn
      calc pte &&& ptePxn = pte &&& ~~~(pteAddrMask ||| pteTable) &&& ptePxn := by
            rw [UInt64.and_assoc]
            rfl
        _ = 0 := by
            rw [hAttr]
            rfl
  refine ⟨a, ha, ha₂, ?_, hAll⟩
  intro hKeeps
  have hHere : KernelArea 0x40000000 := by decide
  obtain ⟨hKernel, -, hNe⟩ := hAll 0x40000000 hHere
  refine hNe (hKeeps _ hHere ?_)
  rw [hKernel]
  exact Option.some_ne_none _

theorem kernel_area_lost_first_space :
    ∃ s₁ a, ((booted sampleImage fun _ _ => 0).given []).vmmCreateAddressSpace sampleImage = (some 0, s₁) ∧
      s₁.pgd 0 = some a ∧ ¬ KeepsKernel sampleImage (booted sampleImage fun _ _ => 0) s₁ a := by
  have hCreate : ((booted sampleImage fun _ _ => 0).given []).vmmCreateAddressSpace sampleImage = (some 0, _) :=
    Prod.ext (by decide +kernel) rfl
  have hFresh : Fresh sampleImage (booted sampleImage fun _ _ => 0).allocated [] := by decide +kernel
  obtain ⟨a, ha, -, hLost, -⟩ := kernel_area_lost (Run.refl _) hFresh hCreate (Run.refl _)
  exact ⟨_, a, hCreate, ha, hLost⟩

theorem first_space_misses_kernel :
    ∃ s₁ a, (booted sampleImage fun _ _ => 0).vmmCreateAddressSpace sampleImage = (some 0, s₁) ∧
      s₁.pgd 0 = some a ∧ ¬ KeepsKernel sampleImage (booted sampleImage fun _ _ => 0) s₁ a := by
  refine ⟨((booted sampleImage fun _ _ => 0).vmmCreateAddressSpace sampleImage).2, 0x3000,
    Prod.ext (by decide +kernel) rfl, by decide +kernel, ?_⟩
  intro hKeeps
  have hSame := hKeeps 0x40000000 (by decide) (by decide +kernel)
  revert hSame
  decide +kernel

end UnixOS.Paging
