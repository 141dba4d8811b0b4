import UnixOS.Mm.VmmInv

/-! # What the calls of the virtual memory manager do

A call that succeeds sets one translation, or adds an address space in which nothing is mapped; one that
fails sets none.
-/

namespace UnixOS.Paging

open TableForest BitFields

variable {img : Image} {s s' s'' : Vmm}

def path (vaddr : UInt64) : List Nat := [pteIndex vaddr 0, pteIndex vaddr 1, pteIndex vaddr 2]

theorem translate_def (s : Vmm) (pgd vaddr : UInt64) :
    s.translate pgd vaddr = resolve tableOf pteIsValid s.tables pgd (path vaddr) (pteIndex vaddr 3) := rfl

/-! ### Writing the last entry -/

structure Sets (img : Image) (s s' : Vmm) (r : Option Nat) (q : List Nat) (i : Nat) (pte : UInt64) : Prop where
  pgd : s'.pgd = s.pgd
  mmIndex : s'.mmIndex = s.mmIndex
  self : ∀ a, root img s.pgd r = some a →
    resolve tableOf pteIsValid s'.tables a q i = if pteIsValid pte then some (pte, 0) else none
  others : ∀ r' a q' k, root img s.pgd r' = some a → own r' q' → q'.length = 3 →
    ¬ (r' = r ∧ q' = q ∧ k = i) →
    resolve tableOf pteIsValid s'.tables a q' k = resolve tableOf pteIsValid s.tables a q' k

theorem Quiet.sets {r : Option Nat} {q : List Nat} {i : Nat} {pte : UInt64} (h : Quiet img s s')
    (h' : Sets img s' s'' r q i pte) : Sets img s s'' r q i pte where
  pgd := h'.pgd.trans h.pgd
  mmIndex := h'.mmIndex.trans h.mmIndex
  self := fun a hRoot => h'.self a (h.pgd ▸ hRoot)
  others := by
    intro r' a q' k hRoot hq hLength hOther
    rw [h'.others r' a q' k (h.pgd ▸ hRoot) hq hLength hOther, h.resolve r' a q' k hRoot hq hLength]

theorem resolve_of_reach {r : Option Nat} {q : List Nat} {t a : UInt64} (hReach : s.Reach img r q t)
    (hRoot : root img s.pgd r = some a) (i : Nat) :
    resolve tableOf pteIsValid s.tables a q i =
      if pteIsValid (s.tables t i) then some (s.tables t i, 0) else none := by
  unfold Vmm.Reach Reaches at hReach
  rw [hRoot, Option.bind_some] at hReach
  have hEnd : resolve tableOf pteIsValid s.tables a (q ++ []) i = _ := resolve_append hReach
  rw [List.append_nil] at hEnd
  rw [hEnd, resolve]

section Leaf

variable {r : Option Nat} {q : List Nat} {t : UInt64} (h : Inv img s) (hOwn : own r q)
  (hLength : q.length = 3) (hReach : s.Reach img r q t)

include h hOwn hLength hReach

theorem Inv.write_sets (i : Nat) (pte : UInt64) : Sets img s (s.write t i pte) r q i pte where
  pgd := rfl
  mmIndex := rfl
  self := fun _ hRoot =>
    h.separated.resolve_write_self own_closed hOwn hReach (not_own_deep hLength) hRoot
  others := fun _ _ _ _ hRoot hq _ hOther =>
    h.separated.resolve_write_of_ne own_closed hOwn hReach (not_own_deep hLength) hRoot hq hOther

theorem Inv.write_reach (i : Nat) (pte : UInt64) {r' : Option Nat} {q' : List Nat} (hq : own r' q') (x : UInt64) :
    (s.write t i pte).Reach img r' q' x ↔ s.Reach img r' q' x :=
  h.separated.reaches_write own_closed hOwn hReach (not_own_deep hLength) i pte hq x

theorem Inv.write (i : Nat) (pte : UInt64)
    (hMark : ∀ k, r = some k → pteIsValid pte = true → pte &&& ptePxn ≠ 0) : Inv img (s.write t i pte) := by
  have hReachIff : ∀ {r' : Option Nat} {q' : List Nat}, own r' q' → ∀ x,
      (s.write t i pte).Reach img r' q' x ↔ s.Reach img r' q' x := by
    intro r' q' hq x
    exact h.write_reach hOwn hLength hReach i pte hq x
  refine ⟨⟨h.supply.kernel, h.supply.early, h.supply.fresh⟩, ?_, ?_, h.slots, ?_, ?_⟩
  · exact h.separated.write own_closed hOwn hReach (not_own_deep hLength) i pte
  · intro r' q' x hq hx
    exact h.known r' q' x hq ((hReachIff hq x).mp hx)
  · intro k q' j x hNext hx hValid
    have hOld := (hReachIff (own_closed _ q' j hNext) x).mp hx
    have hSame : (s.write t i pte).tables x j = s.tables x j := by
      refine setEntry_of_ne pte ?_
      rintro ⟨rfl, -⟩
      obtain ⟨rfl, rfl⟩ := h.separated _ _ _ _ x (own_closed _ q' j hNext) hOwn hOld hReach
      exact not_own_deep hLength j hNext
    rw [hSame] at hValid ⊢
    exact h.inner k q' j x hNext hOld hValid
  · intro k q' j x hq hLength' hx hValid
    have hOld := (hReachIff hq x).mp hx
    by_cases hHere : x = t ∧ j = i
    · obtain ⟨rfl, rfl⟩ := hHere
      obtain ⟨rfl, rfl⟩ := h.separated _ _ _ _ x hq hOwn hOld hReach
      have hEntry : (s.write x j pte).tables x j = pte := setEntry_self _ _ _ _
      rw [hEntry] at hValid ⊢
      exact hMark k rfl hValid
    · have hSame : (s.write t i pte).tables x j = s.tables x j := setEntry_of_ne pte hHere
      rw [hSame] at hValid ⊢
      exact h.marked k q' j x hq hLength' hOld hValid

end Leaf

/-! ### The kernel's pages -/

theorem own_path_kernel (vaddr : UInt64) : own none (path vaddr) := Nat.le_refl 3

theorem reach_kernel : s.Reach img none [] img.kernelPgd := rfl

theorem vmFlagsToPte_and (flags : UInt32) :
    vmFlagsToPte flags &&& pteValid = pteValid ∧ vmFlagsToPte flags &&& pteAddrMask = 0 ∧
      vmFlagsToPte flags &&& ~~~pteAddrMask = vmFlagsToPte flags := by
  unfold vmFlagsToPte
  dsimp only
  split_ifs <;> decide

theorem physToPte_vmFlagsToPte (paddr : UInt64) (flags : UInt32) :
    pteIsValid (physToPte paddr (vmFlagsToPte flags)) = true ∧
      pteToPhys (physToPte paddr (vmFlagsToPte flags)) = paddr &&& pteAddrMask ∧
      physToPte paddr (vmFlagsToPte flags) &&& ~~~pteAddrMask = vmFlagsToPte flags := by
  obtain ⟨hValid, hAddr, hClear⟩ := vmFlagsToPte_and flags
  unfold pteIsValid pteToPhys physToPte
  rw [masked_or_and, masked_or_and, masked_or_and, hValid, hAddr, hClear,
    show pteAddrMask &&& pteValid = 0 by decide, show pteAddrMask &&& ~~~pteAddrMask = 0 by decide]
  simp [show pteValid ≠ 0 by decide]

theorem Inv.vmmMapPage {vaddr paddr : UInt64} {flags : UInt32} {ret : Int} (h : Inv img s)
    (hMap : s.vmmMapPage img vaddr paddr flags = (ret, s')) :
    Inv img s' ∧ (ret = 0 ∧ s.translate img.kernelPgd vaddr = none ∧
        Sets img s s' none (path vaddr) (pteIndex vaddr 3) (physToPte paddr (vmFlagsToPte flags)) ∨
      ret = -1 ∧ Quiet img s s') := by
  unfold Vmm.vmmMapPage at hMap
  cases hWalk : s.walkPageTable img img.kernelPgd vaddr true with
  | mk res s₁ =>
    obtain ⟨hInv, hQuiet, hEnd⟩ := h.walkLevels reach_kernel (own_path_kernel vaddr) hWalk
    cases res with
    | none =>
      simp only [hWalk, Prod.mk.injEq] at hMap
      obtain ⟨rfl, rfl⟩ := hMap
      exact ⟨hInv, Or.inr ⟨rfl, hQuiet⟩⟩
    | some t =>
      have hReach : s₁.Reach img none (path vaddr) t := hEnd t rfl
      cases hValid : pteIsValid (s₁.tables t (pteIndex vaddr 3)) with
      | true =>
        simp only [hWalk, hValid, if_true, Prod.mk.injEq] at hMap
        obtain ⟨rfl, rfl⟩ := hMap
        exact ⟨hInv, Or.inr ⟨rfl, hQuiet⟩⟩
      | false =>
        simp only [hWalk, hValid, Bool.false_eq_true, if_false, Prod.mk.injEq] at hMap
        obtain ⟨rfl, rfl⟩ := hMap
        have hOwn := own_path_kernel vaddr
        refine ⟨hInv.write hOwn rfl hReach _ _ fun k hk => absurd hk.symm (Option.some_ne_none k), Or.inl ⟨rfl, ?_, ?_⟩⟩
        · rw [translate_def, ← hQuiet.resolve none _ _ _ rfl hOwn rfl, resolve_of_reach hReach rfl,
            hValid]
          rfl
        · exact hQuiet.sets (hInv.write_sets hOwn rfl hReach _ _)

theorem Inv.vmmUnmapPage {vaddr : UInt64} {ret : Int} (h : Inv img s)
    (hUnmap : s.vmmUnmapPage img vaddr = (ret, s')) :
    Inv img s' ∧ (ret = 0 ∧ (∃ pte, s.translate img.kernelPgd vaddr = some (pte, 0)) ∧
        Sets img s s' none (path vaddr) (pteIndex vaddr 3) 0 ∨
      ret = -1 ∧ s' = s) := by
  unfold Vmm.vmmUnmapPage Vmm.walkPageTable at hUnmap
  rw [walkLevels_false] at hUnmap
  cases hFollow : follow tableOf s.tables img.kernelPgd (path vaddr) with
  | none =>
    unfold path at hFollow
    simp only [hFollow, Prod.mk.injEq] at hUnmap
    exact ⟨hUnmap.2 ▸ h, Or.inr ⟨hUnmap.1.symm, hUnmap.2.symm⟩⟩
  | some t =>
    have hReach : s.Reach img none (path vaddr) t := hFollow
    have hOwn := own_path_kernel vaddr
    unfold path at hFollow
    cases hValid : pteIsValid (s.tables t (pteIndex vaddr 3)) with
    | false =>
      simp only [hFollow, hValid, Bool.not_false, if_true, Prod.mk.injEq] at hUnmap
      exact ⟨hUnmap.2 ▸ h, Or.inr ⟨hUnmap.1.symm, hUnmap.2.symm⟩⟩
    | true =>
      simp only [hFollow, hValid, Bool.not_true, Bool.false_eq_true, if_false, Prod.mk.injEq] at hUnmap
      obtain ⟨rfl, rfl⟩ := hUnmap
      refine ⟨h.write hOwn rfl hReach _ _ fun k hk => absurd hk.symm (Option.some_ne_none k), Or.inl ⟨rfl, ?_, ?_⟩⟩
      · rw [translate_def, resolve_of_reach hReach rfl, hValid]
        exact ⟨_, rfl⟩
      · exact h.write_sets hOwn rfl hReach _ _

theorem vmmVirtToPhys_eq (vaddr : UInt64) :
    s.vmmVirtToPhys img vaddr =
      match s.translate img.kernelPgd vaddr with
      | some (pte, 0) => pteToPhys pte ||| (vaddr &&& (pageSize - 1))
      | _ => 0 := by
  unfold Vmm.vmmVirtToPhys Vmm.walkPageTable
  rw [walkLevels_false, translate_def]
  cases hFollow : follow tableOf s.tables img.kernelPgd (path vaddr) with
  | none =>
    have hNone : ∀ pte, resolve tableOf pteIsValid s.tables img.kernelPgd (path vaddr) (pteIndex vaddr 3) ≠
        some (pte, 0) := fun pte => resolve_of_follow_none hFollow pte
    unfold path at hFollow
    rw [hFollow]
    dsimp only
    split
    · next hSome => exact absurd hSome (hNone _)
    · rfl
  | some t =>
    have hReach : s.Reach img none (path vaddr) t := hFollow
    rw [resolve_of_reach hReach rfl]
    unfold path at hFollow
    cases hValid : pteIsValid (s.tables t (pteIndex vaddr 3)) with
    | false => simp [hFollow, hValid]
    | true => simp [hFollow, hValid]

/-! ### A new address space -/

theorem root_update (mm : Nat) (a : UInt64) :
    root img (Function.update s.pgd mm (some a)) = Function.update (root img s.pgd) (some mm) (some a) := by
  funext r
  cases r with
  | none => rw [Function.update_of_ne (Option.some_ne_none mm).symm]; rfl
  | some k =>
    by_cases hk : k = mm
    · rw [hk, Function.update_self]
      exact Function.update_self _ _ _
    · rw [Function.update_of_ne fun h => hk (Option.some.inj h)]
      exact Function.update_of_ne hk _ _

structure Keeps (img : Image) (s s' : Vmm) : Prop where
  roots : ∀ r a, root img s.pgd r = some a → root img s'.pgd r = some a
  resolve : ∀ r a q k, root img s.pgd r = some a → own r q → q.length = 3 →
    resolve tableOf pteIsValid s'.tables a q k = resolve tableOf pteIsValid s.tables a q k

theorem Quiet.keeps (h : Quiet img s s') : Keeps img s s' where
  roots := fun _ _ hRoot => h.pgd ▸ hRoot
  resolve := h.resolve

section Create

variable {c : UInt64}

def Vmm.planted (img : Image) (s : Vmm) (mm : Nat) (c : UInt64) : Vmm :=
  { s.copyKernelHalf img c with pgd := Function.update s.pgd mm (some c) }

theorem Obtained.planted_clear (hNew : Obtained img s c s') (mm : Nat) {j : Nat} (hLow : j < vmmEntries / 2) :
    (s'.planted img mm c).tables c j = 0 := by
  show Function.update s'.tables c _ c j = 0
  rw [Function.update_self, if_neg fun hHigh => absurd hHigh.1 (Nat.not_le.mpr hLow), hNew.tables,
    Function.update_self]

theorem Inv.plants {mm : Nat} (h : Inv img s) (hAbsent : s.pgd mm = none) (hNew : Obtained img s c s') :
    Plants tableOf (root img s.pgd) own s.tables (s'.planted img mm c).tables (some mm) c where
  absent := hAbsent
  fresh := fun r' q hq hc => hNew.unused (h.known r' q c hq hc)
  others := by
    intro x hx
    show Function.update s'.tables c _ x = _
    rw [Function.update_of_ne hx, hNew.tables, Function.update_of_ne hx]
  empty := by
    intro j hj
    rw [hNew.planted_clear mm (hj.2 j rfl)]
    rfl

theorem Inv.planted {mm : Nat} (h : Inv img s) (hAbsent : s.pgd mm = none) (hIndex : mm < s.mmIndex)
    (hNew : Obtained img s c s') : Inv img (s'.planted img mm c) := by
  have hPlant := h.plants hAbsent hNew
  have hRoot : root img (s'.planted img mm c).pgd = Function.update (root img s.pgd) (some mm) (some c) := by
    show root img (Function.update s'.pgd mm (some c)) = _
    rw [hNew.pgd, root_update]
  have hReach : ∀ {r q}, own r q → ∀ x, (s'.planted img mm c).Reach img r q x ↔
      s.Reach img r q x ∨ r = some mm ∧ q = [] ∧ x = c := by
    intro r q hq x
    unfold Vmm.Reach
    rw [hRoot]
    exact hPlant.reaches_iff own_closed hq x
  have hSame : ∀ {r q x}, own r q → s.Reach img r q x → (s'.planted img mm c).tables x = s.tables x :=
    fun hq hx => hPlant.others _ fun hEq => hPlant.fresh _ _ hq (hEq ▸ hx)
  have hAllocated : (s'.planted img mm c).allocated = c :: s.allocated := hNew.allocated
  refine ⟨⟨hNew.supply.kernel, hNew.supply.early, hNew.supply.fresh⟩, ?_, ?_, ?_, ?_, ?_⟩
  · rw [hRoot]
    exact hPlant.separated own_closed h.separated
  · intro r q x hq hx
    rw [hAllocated]
    rcases (hReach hq x).mp hx with hOld | ⟨-, -, rfl⟩
    · rcases List.mem_cons.mp (h.known r q x hq hOld) with rfl | hMem
      · exact List.mem_cons_self
      · exact List.mem_cons_of_mem _ (List.mem_cons_of_mem _ hMem)
    · exact List.mem_cons_of_mem _ List.mem_cons_self
  · intro k hk
    have hk' : s.mmIndex ≤ k := hNew.mmIndex ▸ hk
    show Function.update s'.pgd mm (some c) k = none
    rw [Function.update_of_ne (by omega), hNew.pgd]
    exact h.slots k hk'
  · intro k q j x hNext hx hValid
    have hq := own_closed _ q j hNext
    rcases (hReach hq x).mp hx with hOld | ⟨hk, rfl, rfl⟩
    · rw [hSame hq hOld] at hValid ⊢
      exact h.inner k q j x hNext hOld hValid
    · rw [hNew.planted_clear mm (hNext.2 j rfl)] at hValid
      cases hValid
  · intro k q j x hq hLength hx hValid
    rcases (hReach hq x).mp hx with hOld | ⟨-, rfl, -⟩
    · rw [hSame hq hOld] at hValid ⊢
      exact h.marked k q j x hq hLength hOld hValid
    · cases hLength

theorem Inv.planted_keeps {mm : Nat} (h : Inv img s) (hAbsent : s.pgd mm = none) (hNew : Obtained img s c s') :
    Keeps img s (s'.planted img mm c) where
  roots := by
    intro r a hRoot
    show root img (Function.update s'.pgd mm (some c)) r = some a
    rw [hNew.pgd, root_update, Function.update_of_ne, hRoot]
    rintro rfl
    exact Option.some_ne_none a (hRoot.symm.trans hAbsent)
  resolve := fun _ _ _ _ hRoot hq _ => (h.plants hAbsent hNew).resolve_eq own_closed hRoot hq

theorem Obtained.planted_empty (hNew : Obtained img s c s') {mm : Nat} {q : List Nat}
    (hq : own (some mm) q) (hLength : q.length = 3) (k : Nat) :
    resolve tableOf pteIsValid (s'.planted img mm c).tables c q k = none := by
  cases q with
  | nil => cases hLength
  | cons i q =>
    rw [resolve, hNew.planted_clear mm (hq.2 i rfl)]
    rfl

theorem Inv.vmmCreateAddressSpace {res : Option Nat} (h : Inv img s)
    (hCreate : s.vmmCreateAddressSpace img = (res, s')) :
    Inv img s' ∧ Keeps img s s' ∧ ∀ mm, res = some mm → s.pgd mm = none ∧ ∃ a, s'.pgd mm = some a ∧
      ∀ q k, own (some mm) q → q.length = 3 → resolve tableOf pteIsValid s'.tables a q k = none := by
  unfold Vmm.vmmCreateAddressSpace at hCreate
  by_cases hFull : s.mmIndex ≥ mmPoolSize
  · rw [if_pos hFull, Prod.mk.injEq] at hCreate
    obtain ⟨rfl, rfl⟩ := hCreate
    exact ⟨h, (Quiet.refl img s).keeps, fun mm hmm => by cases hmm⟩
  · rw [if_neg hFull] at hCreate
    have hAbsent : s.pgd s.mmIndex = none := h.slots s.mmIndex (Nat.le_refl _)
    have hMore : Inv img { s with mmIndex := s.mmIndex + 1 } :=
      ⟨⟨h.supply.kernel, h.supply.early, h.supply.fresh⟩, h.separated, h.known,
        fun k hk => h.slots k (Nat.le_of_succ_le hk), h.inner, h.marked⟩
    dsimp only at hCreate
    cases hAlloc : ({ s with mmIndex := s.mmIndex + 1 } : Vmm).allocPageTable img with
    | mk new s₁ =>
      rcases hMore.supply.allocPageTable hAlloc with ⟨rfl, rfl⟩ | ⟨c, rfl, hNew⟩
      · have hSame : Function.update s.pgd s.mmIndex none = s.pgd := by
          rw [← hAbsent, Function.update_eq_self]
        simp only [hAlloc, hSame, Prod.mk.injEq] at hCreate
        obtain ⟨rfl, rfl⟩ := hCreate
        exact ⟨hMore, ⟨fun _ _ hRoot => hRoot, fun _ _ _ _ _ _ _ => rfl⟩, fun mm hmm => by cases hmm⟩
      · simp only [hAlloc, Prod.mk.injEq] at hCreate
        obtain ⟨rfl, rfl⟩ := hCreate
        have hKeeps := hMore.planted_keeps hAbsent hNew
        refine ⟨hMore.planted hAbsent (Nat.lt_succ_self _) hNew, ?_, fun mm hmm => ?_⟩
        · exact ⟨hKeeps.roots, hKeeps.resolve⟩
        · obtain rfl := Option.some.inj hmm
          refine ⟨hAbsent, c, Function.update_self _ _ _, fun q k hq hLength => ?_⟩
          exact hNew.planted_empty hq hLength k

end Create

/-! ### Pages of an address space -/

theorem pteIndex_eq (vaddr : UInt64) {level : Nat} (h : level ≤ 3) :
    pteIndex vaddr level = vaddr.toNat / 2 ^ (39 - 9 * level) % 512 := by
  have hShift : (levelShift level).toNat % 64 = 39 - 9 * level := by
    rw [levelShift, UInt64.toNat_ofNat']
    omega
  rw [pteIndex, UInt64.toNat_and, UInt64.toNat_shiftRight, hShift, Nat.shiftRight_eq_div_pow]
  exact Nat.and_two_pow_sub_one_eq_mod _ 9

theorem own_path_user (mm : Nat) {vaddr : UInt64} (h : vaddr < userVmaEnd) : own (some mm) (path vaddr) := by
  refine ⟨Nat.le_refl 3, fun i hi => ?_⟩
  obtain rfl : pteIndex vaddr 0 = i := Option.some.inj hi
  have hLt : vaddr.toNat < 2 ^ 47 := UInt64.lt_iff_toNat_lt.mp h
  rw [pteIndex_eq vaddr (Nat.zero_le 3)]
  unfold vmmEntries
  omega

theorem Inv.walkCreate {mm : Nat} {p : List Nat} {i : Nat} {t : UInt64} (h : Inv img s)
    (hOwn : own (some mm) (p ++ [i])) (hReach : s.Reach img (some mm) p t) :
    s.walkCreate img t i = Vmm.walkLevels img true [i] s t := by
  rw [Vmm.walkCreate, Vmm.walkLevels]
  cases hValid : pteIsValid (s.tables t i) with
  | true =>
    have hTable := h.inner mm p i t hOwn hReach hValid
    simp only [hTable, Bool.not_true, Bool.false_eq_true, if_true, if_false]
    rfl
  | false =>
    simp only [Bool.not_false, Bool.not_true, Bool.false_eq_true, if_true, if_false]
    cases hAlloc : s.allocPageTable img with
    | mk new s₁ =>
      rcases h.supply.allocPageTable hAlloc with ⟨rfl, -⟩ | ⟨c, rfl, hNew⟩
      · rfl
      · have hEntry : (c &&& pteAddrMask) ||| pteValid ||| pteTable = physToPte c (pteValid ||| pteTable) :=
          UInt64.or_assoc _ _ _
        have hRead : (s₁.write t i (physToPte c (pteValid ||| pteTable))).tables t i =
            physToPte c (pteValid ||| pteTable) := setEntry_self _ _ _ _
        simp only [hEntry, hRead, pteToPhys_physToPte_table hNew.aligned]
        rfl

theorem userPteFlags_and (flags : UInt32) :
    Vmm.userPteFlags flags &&& pteValid = pteValid ∧ Vmm.userPteFlags flags &&& ptePxn = ptePxn := by
  unfold Vmm.userPteFlags
  dsimp only
  split_ifs <;> decide

theorem userPte_and (paddr : UInt64) (flags : UInt32) :
    pteIsValid ((paddr &&& pteAddrMask) ||| Vmm.userPteFlags flags) = true ∧
      ((paddr &&& pteAddrMask) ||| Vmm.userPteFlags flags) &&& ptePxn ≠ 0 := by
  obtain ⟨hValid, hPxn⟩ := userPteFlags_and flags
  unfold pteIsValid
  rw [masked_or_and, masked_or_and, hValid, hPxn, show pteAddrMask &&& pteValid = 0 by decide,
    show pteAddrMask &&& ptePxn = 0 by decide, UInt64.and_zero, UInt64.zero_or, UInt64.zero_or]
  exact ⟨by decide, by decide⟩

theorem Inv.walkCreate_spec {mm : Nat} {p : List Nat} {i : Nat} {t : UInt64} {res : Option UInt64}
    (h : Inv img s) (hOwn : own (some mm) (p ++ [i])) (hReach : s.Reach img (some mm) p t)
    (hWalk : s.walkCreate img t i = (res, s')) :
    Inv img s' ∧ Quiet img s s' ∧ ∀ x, res = some x → s'.Reach img (some mm) (p ++ [i]) x := by
  rw [h.walkCreate hOwn hReach] at hWalk
  exact h.walkLevels hReach hOwn hWalk

theorem Inv.vmmMapUserPage {mm : Nat} {vaddr paddr : UInt64} {flags : UInt32} {ret : Int} (h : Inv img s)
    (hMap : s.vmmMapUserPage img mm vaddr paddr flags = (ret, s')) :
    Inv img s' ∧ (ret = 0 ∧ vaddr < userVmaEnd ∧
        Sets img s s' (some mm) (path vaddr) (pteIndex vaddr 3)
          ((paddr &&& pteAddrMask) ||| Vmm.userPteFlags flags) ∨
      ret = -1 ∧ Quiet img s s') := by
  have hFail : ∀ {s₁ : Vmm}, Inv img s₁ → Quiet img s s₁ → (-1, s₁) = (ret, s') →
      Inv img s' ∧ (ret = 0 ∧ vaddr < userVmaEnd ∧
        Sets img s s' (some mm) (path vaddr) (pteIndex vaddr 3)
          ((paddr &&& pteAddrMask) ||| Vmm.userPteFlags flags) ∨
        ret = -1 ∧ Quiet img s s') := by
    intro s₁ hInv hQuiet hEq
    obtain ⟨rfl, rfl⟩ := Prod.mk.inj hEq
    exact ⟨hInv, Or.inr ⟨rfl, hQuiet⟩⟩
  unfold Vmm.vmmMapUserPage at hMap
  cases hPgd : s.pgd mm with
  | none =>
    simp only [hPgd] at hMap
    exact hFail h (Quiet.refl img s) hMap
  | some l0 =>
    simp only [hPgd] at hMap
    by_cases hHigh : vaddr ≥ userVmaEnd
    · rw [if_pos hHigh] at hMap
      exact hFail h (Quiet.refl img s) hMap
    rw [if_neg hHigh] at hMap
    have hUser : vaddr < userVmaEnd := UInt64.not_le.mp hHigh
    have hOwn := own_path_user mm hUser
    have hOwn₂ : own (some mm) ([pteIndex vaddr 0] ++ [pteIndex vaddr 1]) := own_closed _ _ _ hOwn
    have hOwn₁ : own (some mm) ([] ++ [pteIndex vaddr 0]) := own_closed _ [pteIndex vaddr 0] _ hOwn₂
    have hReach₀ : s.Reach img (some mm) [] l0 := by
      unfold Vmm.Reach Reaches
      rw [root, hPgd]
      rfl
    cases hWalk₁ : s.walkCreate img l0 (pteIndex vaddr 0) with
    | mk res₁ s₁ =>
      obtain ⟨hInv₁, hQuiet₁, hEnd₁⟩ := h.walkCreate_spec hOwn₁ hReach₀ hWalk₁
      rw [hWalk₁] at hMap
      cases res₁ with
      | none => exact hFail hInv₁ hQuiet₁ hMap
      | some l1 =>
        dsimp only at hMap
        cases hWalk₂ : s₁.walkCreate img l1 (pteIndex vaddr 1) with
        | mk res₂ s₂ =>
          obtain ⟨hInv₂, hQuiet₂, hEnd₂⟩ := hInv₁.walkCreate_spec hOwn₂ (hEnd₁ l1 rfl) hWalk₂
          rw [hWalk₂] at hMap
          cases res₂ with
          | none => exact hFail hInv₂ (hQuiet₁.trans hQuiet₂) hMap
          | some l2 =>
            dsimp only at hMap
            cases hWalk₃ : s₂.walkCreate img l2 (pteIndex vaddr 2) with
            | mk res₃ s₃ =>
              obtain ⟨hInv₃, hQuiet₃, hEnd₃⟩ := hInv₂.walkCreate_spec hOwn (hEnd₂ l2 rfl) hWalk₃
              have hQuiet := (hQuiet₁.trans hQuiet₂).trans hQuiet₃
              rw [hWalk₃] at hMap
              cases res₃ with
              | none => exact hFail hInv₃ hQuiet hMap
              | some l3 =>
                obtain ⟨rfl, rfl⟩ := Prod.mk.inj hMap
                have hReach₃ : s₃.Reach img (some mm) (path vaddr) l3 := hEnd₃ l3 rfl
                refine ⟨?_, Or.inl ⟨rfl, hUser, ?_⟩⟩
                · exact hInv₃.write hOwn rfl hReach₃ _ _ fun _ _ _ => (userPte_and paddr flags).2
                · exact hQuiet.sets (hInv₃.write_sets hOwn rfl hReach₃ _ _)

/-! ### Ranges -/

structure Within (img : Image) (s s' : Vmm) (mm : Nat) : Prop where
  pgd : s'.pgd = s.pgd
  mmIndex : s'.mmIndex = s.mmIndex
  others : ∀ r a q k, r ≠ some mm → root img s.pgd r = some a → own r q → q.length = 3 →
    resolve tableOf pteIsValid s'.tables a q k = resolve tableOf pteIsValid s.tables a q k

theorem Quiet.within (h : Quiet img s s') (mm : Nat) : Within img s s' mm :=
  ⟨h.pgd, h.mmIndex, fun r a q k _ => h.resolve r a q k⟩

theorem Sets.within {mm : Nat} {q : List Nat} {i : Nat} {pte : UInt64} (h : Sets img s s' (some mm) q i pte) :
    Within img s s' mm :=
  ⟨h.pgd, h.mmIndex, fun r a q' k hr hRoot hq hLength =>
    h.others r a q' k hRoot hq hLength fun hSame => hr hSame.1⟩

theorem Within.trans {mm : Nat} (h : Within img s s' mm) (h' : Within img s' s'' mm) : Within img s s'' mm where
  pgd := h'.pgd.trans h.pgd
  mmIndex := h'.mmIndex.trans h.mmIndex
  others := by
    intro r a q k hr hRoot hq hLength
    rw [h'.others r a q k hr (h.pgd ▸ hRoot) hq hLength, h.others r a q k hr hRoot hq hLength]

theorem Inv.pmmAllocPage {paddr : UInt64} (h : Inv img s) (hAlloc : s.pmmAllocPage = (paddr, s')) :
    Inv img s' ∧ Quiet img s s' := by
  unfold Vmm.pmmAllocPage at hAlloc
  cases hPages : s.pages with
  | nil =>
    rw [hPages] at hAlloc
    obtain ⟨-, rfl⟩ := Prod.mk.inj hAlloc
    exact ⟨h, Quiet.refl img s⟩
  | cons page pages =>
    rw [hPages] at hAlloc
    obtain ⟨-, rfl⟩ := Prod.mk.inj hAlloc
    have hFresh := h.supply.fresh
    rw [hPages] at hFresh
    have hRest : Fresh img s.allocated pages :=
      ⟨(List.nodup_cons.mp hFresh.1).2, fun x hx => hFresh.2 x (List.mem_cons_of_mem _ hx)⟩
    refine ⟨⟨⟨h.supply.kernel, h.supply.early, hRest⟩, h.separated, h.known, h.slots, h.inner, h.marked⟩, ?_⟩
    exact ⟨rfl, rfl, fun _ _ _ _ _ _ _ => rfl⟩

theorem Inv.mapUserPages {mm : Nat} {flags : UInt32} {addrs : List UInt64} {ret : Int} (h : Inv img s)
    (hMap : Vmm.mapUserPages img mm flags addrs s = (ret, s')) : Inv img s' ∧ Within img s s' mm := by
  induction addrs generalizing s with
  | nil =>
    obtain ⟨-, rfl⟩ := Prod.mk.inj hMap
    exact ⟨h, (Quiet.refl img s).within mm⟩
  | cons addr rest ih =>
    rw [Vmm.mapUserPages] at hMap
    cases hAlloc : s.pmmAllocPage with
    | mk paddr s₁ =>
      obtain ⟨hInv₁, hQuiet₁⟩ := h.pmmAllocPage hAlloc
      simp only [hAlloc] at hMap
      split at hMap
      · obtain ⟨-, rfl⟩ := Prod.mk.inj hMap
        exact ⟨hInv₁, hQuiet₁.within mm⟩
      · cases hPage : s₁.vmmMapUserPage img mm addr paddr flags with
        | mk ret₂ s₂ =>
          obtain ⟨hInv₂, hPageSpec⟩ := hInv₁.vmmMapUserPage hPage
          have hWithin : Within img s s₂ mm := by
            refine (hQuiet₁.within mm).trans ?_
            rcases hPageSpec with ⟨-, -, hSets⟩ | ⟨-, hQuiet₂⟩
            · exact hSets.within
            · exact hQuiet₂.within mm
          simp only [hPage] at hMap
          split at hMap
          · obtain ⟨-, rfl⟩ := Prod.mk.inj hMap
            exact ⟨hInv₂, hWithin⟩
          · obtain ⟨hInv, hRest⟩ := ih hInv₂ hMap
            exact ⟨hInv, hWithin.trans hRest⟩

end UnixOS.Paging
