import UnixOS.Mm.UserTables

/-! # The upper half of an address space

What `vmm_create_address_space` copies of the kernel's table stays what the kernel has, or is no entry at all. So a
table that is made for a user address is seen at no other one.
-/

namespace UnixOS.Paging

open TableForest BitFields

variable {img : Image} {s s' : Vmm} {mm : Nat} {a t c : UInt64} {r : Option Nat} {p : List Nat} {i : Nat}

def Upper (img : Image) (s : Vmm) : Prop :=
  ∀ k a i, s.pgd k = some a → vmmEntries / 2 ≤ i → pteIsValid (s.tables a i) = true →
    s.tables a i = s.tables img.kernelPgd i

theorem reach_root {k : Nat} (ha : s.pgd k = some a) : s.Reach img (some k) [] a := (reach_iff_follow ha).mpr rfl

theorem own_nil (r : Option Nat) : own r [] := by
  cases r with
  | none => exact Nat.zero_le 3
  | some k => exact ⟨Nat.zero_le 3, fun i hi => by cases hi⟩

theorem Upper.of_entries (h : Upper img s) (hPgd : s'.pgd = s.pgd)
    (hRoot : ∀ k a i, s.pgd k = some a → vmmEntries / 2 ≤ i → s'.tables a i = s.tables a i)
    (hKernel : ∀ i, pteIsValid (s.tables img.kernelPgd i) = true → s'.tables img.kernelPgd i = s.tables img.kernelPgd i) :
    Upper img s' := by
  intro k a i ha hi hValid
  rw [hPgd] at ha
  rw [hRoot k a i ha hi] at hValid ⊢
  have hSame := h k a i ha hi hValid
  rw [hSame] at hValid ⊢
  exact (hKernel i hValid).symm

theorem Upper.translate_congr (hUpper : Upper img s) {k : Nat} {b u : UInt64} (hb : s.pgd k = some b)
    (hHigh : vmmEntries / 2 ≤ pteIndex u 0) (hFirst : s'.tables b (pteIndex u 0) = s.tables b (pteIndex u 0))
    (hOther : ∀ q x, own none q → s.Reach img none q x → ∀ j, s'.tables x j = s.tables x j) :
    s'.translate b u = s.translate b u := by
  rw [translate_def, translate_def, path, resolve, resolve, hFirst]
  cases hChild : tableOf (s.tables b (pteIndex u 0)) with
  | none => rfl
  | some d =>
    dsimp only
    have hValid : pteIsValid (s.tables b (pteIndex u 0)) = true := by
      by_contra hNot
      rw [tableOf_of_invalid (Bool.eq_false_iff.mpr hNot)] at hChild
      cases hChild
    -- from here on the tables are the kernel's
    have hKernel : s.Reach img none [pteIndex u 0] d := by
      refine reaches_concat.mpr ⟨img.kernelPgd, reach_kernel, ?_⟩
      rw [← hUpper k b _ hb hHigh hValid]
      exact hChild
    apply resolve_congr
    intro q j hPrefix x hx
    have hLength := hPrefix.length_le
    simp only [List.length_append, List.length_cons, List.length_nil] at hLength
    refine hOther (pteIndex u 0 :: q) x (show q.length + 1 ≤ 3 by omega) ?_ j
    unfold Vmm.Reach Reaches at hKernel ⊢
    rw [root, Option.bind_some] at hKernel ⊢
    rw [← List.singleton_append, follow_append, hKernel]
    exact hx

section Link

variable (h : Inv img s) (hNew : Obtained img s c s') (hOwn : own r (p ++ [i]))
  (hReach : s.Reach img r p t) (hInvalid : pteIsValid (s.tables t i) = false)

include h hNew hOwn hReach hInvalid

theorem Upper.link (hUpper : Upper img s) : Upper img (s'.link t i c) := by
  have hKnown : ∀ {x : UInt64}, x ∈ img.kernelPgd :: s.allocated → x ≠ c := by
    rintro x hx rfl
    exact hNew.unused hx
  refine hUpper.of_entries hNew.pgd (fun k b j hb hj => ?_) fun j hValid => ?_
  · rw [hNew.link_tables]
    refine install_of_ne (hKnown (h.known _ _ _ (own_nil _) (reach_root hb))) ?_
    rintro ⟨rfl, rfl⟩
    obtain ⟨rfl, rfl⟩ := h.separated _ _ _ _ b (own_nil _) (own_closed r p j hOwn) (reach_root hb) hReach
    exact absurd (hOwn.2 j rfl) (Nat.not_lt.mpr hj)
  · rw [hNew.link_tables]
    refine install_of_ne (hKnown List.mem_cons_self) ?_
    rintro ⟨rfl, rfl⟩
    rw [hInvalid] at hValid
    cases hValid

theorem Upper.link_translate (hUpper : Upper img s) (hr : r = some mm) {k : Nat} {b u : UInt64} (hb : s.pgd k = some b)
    (hHigh : vmmEntries / 2 ≤ pteIndex u 0) : (s'.link t i c).translate b u = s.translate b u := by
  refine hUpper.translate_congr hb hHigh ?_ fun q x hq hx j => ?_
  · rw [hNew.link_tables]
    refine install_of_ne ?_ ?_
    · rintro rfl
      exact hNew.unused (h.known _ _ _ (own_nil _) (reach_root hb))
    · rintro ⟨rfl, rfl⟩
      obtain ⟨rfl, rfl⟩ := h.separated _ _ _ _ b (own_nil _) (own_closed r p _ hOwn) (reach_root hb) hReach
      exact absurd (hOwn.2 _ rfl) (Nat.not_lt.mpr hHigh)
  · rw [hNew.link_tables]
    refine install_of_ne ?_ ?_
    · rintro rfl
      exact hNew.unused (h.known none q x hq hx)
    · rintro ⟨rfl, -⟩
      have hSame := (h.separated _ _ _ _ x hq (own_closed r p i hOwn) hx hReach).1
      rw [hr] at hSame
      cases hSame

end Link

theorem Upper.walkLevels {rest : List Nat} {res : Option UInt64} (hUpper : Upper img s) (h : Inv img s)
    (hReach : s.Reach img r p t) (hOwn : own r (p ++ rest)) (hWalk : Vmm.walkLevels img true rest s t = (res, s')) :
    Upper img s' ∧ (r = some mm → ∀ k b u, s.pgd k = some b → vmmEntries / 2 ≤ pteIndex u 0 →
      s'.translate b u = s.translate b u) := by
  have hKept := h.walkLevels_keeps hReach hOwn hWalk (P := fun s₁ => Upper img s₁ ∧ s₁.pgd = s.pgd ∧ (r = some mm →
    ∀ k b u, s.pgd k = some b → vmmEntries / 2 ≤ pteIndex u 0 → s₁.translate b u = s.translate b u))
    ⟨hUpper, rfl, fun _ _ _ _ _ _ => rfl⟩ ?_
  · exact ⟨hKept.2.1.1, hKept.2.1.2.2⟩
  · rintro s₁ s₂ p i t c hInv hNew hNext hAt hInvalid ⟨hUpper₁, hPgd, hSame⟩
    refine ⟨hUpper₁.link hInv hNew hNext hAt hInvalid, hNew.pgd.trans hPgd, fun hr k b u hb hHigh => ?_⟩
    rw [hUpper₁.link_translate hInv hNew hNext hAt hInvalid hr ((congrFun hPgd k).trans hb) hHigh]
    exact hSame hr k b u hb hHigh

section Write

variable (h : Inv img s) (hOwn : own r p) (hLength : p.length = 3) (hReach : s.Reach img r p t)
include h hOwn hLength hReach

theorem Inv.root_ne {r' : Option Nat} {x : UInt64} (hx : s.Reach img r' [] x) : x ≠ t := by
  rintro rfl
  obtain ⟨-, rfl⟩ := h.separated _ _ _ _ x (own_nil r') hOwn hx hReach
  cases hLength

theorem Upper.write (hUpper : Upper img s) (i : Nat) (pte : UInt64) : Upper img (s.write t i pte) := by
  refine hUpper.of_entries rfl (fun k b j hb _ => ?_) fun j _ => ?_
  · exact setEntry_of_ne pte fun hHere => h.root_ne hOwn hLength hReach (reach_root hb) hHere.1
  · exact setEntry_of_ne pte fun hHere => h.root_ne hOwn hLength hReach reach_kernel hHere.1

theorem Upper.write_translate (hUpper : Upper img s) (hr : r = some mm) {k : Nat} {b u : UInt64} (hb : s.pgd k = some b)
    (hHigh : vmmEntries / 2 ≤ pteIndex u 0) (i : Nat) (pte : UInt64) :
    (s.write t i pte).translate b u = s.translate b u := by
  refine hUpper.translate_congr hb hHigh ?_ fun q x hq hx j => ?_
  · exact setEntry_of_ne pte fun hHere => h.root_ne hOwn hLength hReach (reach_root hb) hHere.1
  · refine setEntry_of_ne pte ?_
    rintro ⟨rfl, -⟩
    have hSame := (h.separated _ _ _ _ x hq hOwn hx hReach).1
    rw [hr] at hSame
    cases hSame

end Write

/-! ### Runs -/

theorem Upper.of_given {pages : List UInt64} (hUpper : Upper img s) : Upper img (s.given pages) := hUpper

theorem Upper.mapPage (hUpper : Upper img s) (h : Inv img s) (vaddr paddr : UInt64) (flags : UInt32) :
    Upper img (s.vmmMapPage img vaddr paddr flags).2 := by
  unfold Vmm.vmmMapPage
  cases hWalk : s.walkPageTable img img.kernelPgd vaddr true with
  | mk res s₁ =>
    have hOwn : own none ([] ++ path vaddr) := own_path_kernel vaddr
    have hUpper₁ := (@Upper.walkLevels img s s₁ 0 _ none [] (path vaddr) res hUpper h reach_kernel hOwn hWalk).1
    obtain ⟨hInv₁, -, hEnd⟩ := h.walkLevels reach_kernel hOwn hWalk
    cases res with
    | none => exact hUpper₁
    | some t =>
      dsimp only
      split
      · exact hUpper₁
      · exact Upper.write hInv₁ hOwn rfl (hEnd t rfl) hUpper₁ _ _

theorem Upper.unmapPage (hUpper : Upper img s) (h : Inv img s) (vaddr : UInt64) :
    Upper img (s.vmmUnmapPage img vaddr).2 := by
  unfold Vmm.vmmUnmapPage Vmm.walkPageTable
  rw [walkLevels_false]
  cases hFollow : follow tableOf s.tables img.kernelPgd [pteIndex vaddr 0, pteIndex vaddr 1, pteIndex vaddr 2] with
  | none => exact hUpper
  | some t =>
    have hReach : s.Reach img none (path vaddr) t := hFollow
    dsimp only
    split
    · exact hUpper
    · exact Upper.write h (own_path_kernel vaddr) rfl hReach hUpper _ _

theorem Upper.mapUserPage_shared (hUpper : Upper img s) (h : Inv img s) (mm : Nat) (vaddr paddr : UInt64) (flags : UInt32) :
    Upper img (s.vmmMapUserPage img mm vaddr paddr flags).2 ∧
      ∀ k b u, s.pgd k = some b → vmmEntries / 2 ≤ pteIndex u 0 →
        (s.vmmMapUserPage img mm vaddr paddr flags).2.translate b u = s.translate b u := by
  cases hPgd : s.pgd mm with
  | none =>
    unfold Vmm.vmmMapUserPage
    rw [hPgd]
    exact ⟨hUpper, fun _ _ _ _ _ => rfl⟩
  | some a =>
    by_cases hUser : vaddr < userVmaEnd
    · have hOwn : own (some mm) ([] ++ path vaddr) := own_path_user mm hUser
      rw [h.mapUserPage_eq hPgd hUser]
      cases hWalk : Vmm.walkLevels img true (path vaddr) s a with
      | mk res s₁ =>
        obtain ⟨hUpper₁, hSame⟩ :=
          @Upper.walkLevels img s s₁ mm a _ [] (path vaddr) res hUpper h (reach_root hPgd) hOwn hWalk
        obtain ⟨hInv₁, hQuiet, hEnd⟩ := h.walkLevels (reach_root hPgd) hOwn hWalk
        cases res with
        | none => exact ⟨hUpper₁, hSame rfl⟩
        | some t =>
          refine ⟨Upper.write hInv₁ hOwn rfl (hEnd t rfl) hUpper₁ _ _, fun k b u hb hHigh => ?_⟩
          have hb₁ : s₁.pgd k = some b := (congrFun hQuiet.pgd k).trans hb
          rw [← hSame rfl k b u hb hHigh]
          exact Upper.write_translate hInv₁ hOwn rfl (hEnd t rfl) hUpper₁ rfl hb₁ hHigh _ _
    · unfold Vmm.vmmMapUserPage
      rw [hPgd]
      dsimp only
      rw [if_pos (UInt64.not_lt.mp hUser)]
      exact ⟨hUpper, fun _ _ _ _ _ => rfl⟩

theorem Upper.mapUserPage (hUpper : Upper img s) (h : Inv img s) (mm : Nat) (vaddr paddr : UInt64) (flags : UInt32) :
    Upper img (s.vmmMapUserPage img mm vaddr paddr flags).2 := (hUpper.mapUserPage_shared h mm vaddr paddr flags).1

theorem Upper.mapUserPages (hUpper : Upper img s) (h : Inv img s) (mm : Nat) (flags : UInt32) (addrs : List UInt64) :
    Upper img (Vmm.mapUserPages img mm flags addrs s).2 := by
  induction addrs generalizing s with
  | nil => exact hUpper
  | cons addr rest ih =>
    rw [Vmm.mapUserPages]
    cases hAlloc : s.pmmAllocPage with
    | mk paddr s₁ =>
      have hInv₁ := (h.pmmAllocPage hAlloc).1
      have hUpper₁ : Upper img s₁ := by
        unfold Vmm.pmmAllocPage at hAlloc
        split at hAlloc
        · obtain ⟨-, rfl⟩ := Prod.mk.inj hAlloc
          exact hUpper
        · obtain ⟨-, rfl⟩ := Prod.mk.inj hAlloc
          exact hUpper
      dsimp only
      split
      · exact hUpper₁
      · have hUpper₂ := hUpper₁.mapUserPage hInv₁ mm addr paddr flags
        have hInv₂ := (hInv₁.vmmMapUserPage (Prod.eta (s₁.vmmMapUserPage img mm addr paddr flags)).symm).1
        split
        · exact hUpper₂
        · exact ih hUpper₂ hInv₂

theorem Upper.create (hUpper : Upper img s) (h : Inv img s) : Upper img (s.vmmCreateAddressSpace img).2 := by
  unfold Vmm.vmmCreateAddressSpace
  split
  · exact hUpper
  have hMore : Inv img { s with mmIndex := s.mmIndex + 1 } :=
    ⟨⟨h.supply.kernel, h.supply.early, h.supply.fresh⟩, h.separated, h.known,
      fun k hk => h.slots k (Nat.le_of_succ_le hk), h.inner, h.marked⟩
  dsimp only
  cases hAlloc : ({ s with mmIndex := s.mmIndex + 1 } : Vmm).allocPageTable img with
  | mk new s₁ =>
    rcases hMore.supply.allocPageTable hAlloc with ⟨rfl, rfl⟩ | ⟨c, rfl, hNew⟩
    · intro k b j hb hj hValid
      refine hUpper k b j ?_ hj hValid
      change Function.update s.pgd s.mmIndex none k = some b at hb
      by_cases hk : k = s.mmIndex
      · rw [hk, Function.update_self] at hb
        cases hb
      · exact (Function.update_of_ne hk none s.pgd).symm.trans hb
    · have hKernel : img.kernelPgd ≠ c := fun hHere => hNew.unused (hHere ▸ List.mem_cons_self)
      have hTables : ∀ x, x ≠ c → ∀ j, (s₁.planted img s.mmIndex c).tables x j = s.tables x j := by
        intro x hx j
        show Function.update s₁.tables c _ x j = _
        rw [Function.update_of_ne hx, hNew.tables, Function.update_of_ne hx]
      show Upper img (s₁.planted img s.mmIndex c)
      intro k b j hb hj hValid
      rw [hTables _ hKernel]
      change Function.update s₁.pgd s.mmIndex (some c) k = some b at hb
      by_cases hk : k = s.mmIndex
      · rw [hk, Function.update_self] at hb
        obtain rfl : c = b := Option.some.inj hb
        have hEntry : (s₁.planted img s.mmIndex c).tables c j =
            if vmmEntries / 2 ≤ j ∧ j < vmmEntries then s₁.tables img.kernelPgd j else s₁.tables c j := by
          show Function.update s₁.tables c _ c j = _
          rw [Function.update_self]
        rw [hEntry] at hValid ⊢
        split_ifs at hValid ⊢
        · rw [hNew.tables, Function.update_of_ne hKernel]
        · rw [hNew.tables, Function.update_self] at hValid
          cases hValid
      · have hOld : s.pgd k = some b := by
          rwa [Function.update_of_ne hk, hNew.pgd] at hb
        have hb' : b ≠ c := by
          rintro rfl
          exact hNew.unused (h.known _ _ _ (own_nil _) (reach_root hOld))
        rw [hTables b hb'] at hValid ⊢
        exact hUpper k b j hOld hj hValid

theorem Run.upper (h : Run img s s') (hInv : Inv img s) (hUpper : Upper img s) : Upper img s' := by
  induction h with
  | refl => exact hUpper
  | call c pages hBefore hFresh ih =>
    have hNow := (hBefore.inv hInv).given hFresh
    cases c with
    | mapPage vaddr paddr flags => exact ih.of_given.mapPage hNow vaddr paddr flags
    | unmapPage vaddr => exact ih.of_given.unmapPage hNow vaddr
    | createAddressSpace => exact ih.of_given.create hNow
    | mapUserPage mm vaddr paddr flags => exact ih.of_given.mapUserPage hNow mm vaddr paddr flags
    | mapUserRange mm vaddr size flags => exact ih.of_given.mapUserPages hNow mm flags _

theorem Reachable.upper (h : Reachable img s) : Upper img s := by
  obtain ⟨mem, hRun | hRun⟩ := h
  · exact hRun.upper (Inv.boot img mem) fun k a i ha => by cases ha
  · refine hRun.upper (inv_booted img mem) fun k a i ha => ?_
    obtain ⟨l1, s₁, hNew, hEq⟩ := booted_eq img mem
    have hNone : (booted img mem).pgd k = none := by
      rw [hEq]
      exact congrFun hNew.pgd k
    rw [hNone] at ha
    cases ha

theorem lt_userVmaEnd {u : UInt64} (hu : u.toNat < 2 ^ 48) (hLow : pteIndex u 0 < vmmEntries / 2) : u < userVmaEnd := by
  rw [pteIndex_eq u (Nat.zero_le 3)] at hLow
  unfold vmmEntries at hLow
  refine UInt64.lt_iff_toNat_lt.mpr (show u.toNat < 2 ^ 47 from ?_)
  omega

/-- In any interleaving of the calls, what one does in an address space is seen in no other and not in the kernel's
table, and in that space at no other page. -/
theorem address_spaces_isolated (hs : Reachable img s) {pages : List UInt64}
    (hFresh : Fresh img s.allocated pages) :
    Apart img s ((s.given pages).vmmCreateAddressSpace img).2 none ∧
      (∀ mm vaddr paddr flags,
        Apart img s ((s.given pages).vmmMapUserPage img mm vaddr paddr flags).2 (some mm) ∧
          ∀ a, s.pgd mm = some a →
            ((s.given pages).vmmMapUserPage img mm vaddr paddr flags).2.pgd mm = some a ∧
              ∀ u, u.toNat < 2 ^ 48 → ¬ SamePage u vaddr →
                ((s.given pages).vmmMapUserPage img mm vaddr paddr flags).2.translate a u = s.translate a u) ∧
      ∀ mm vaddr size flags,
        Apart img s ((s.given pages).vmmMapUserRange img mm vaddr size flags).2 (some mm) := by
  have hInv := hs.inv.given hFresh
  refine ⟨?_, fun mm vaddr paddr flags => ?_, fun mm vaddr size flags => ?_⟩
  · exact (hInv.vmmCreateAddressSpace (Prod.eta _).symm).2.1.apart.of_given
  · obtain ⟨hWithin, hOnly⟩ := hInv.mapUserPage_only mm vaddr paddr flags
    refine ⟨hWithin.apart.of_given, fun a ha => ⟨?_, fun u hu hOther => ?_⟩⟩
    · rw [hWithin.pgd]
      exact ha
    · by_cases hHigh : vmmEntries / 2 ≤ pteIndex u 0
      · exact ((hs.upper.of_given).mapUserPage_shared hInv mm vaddr paddr flags).2 mm a u ha hHigh
      · exact hOnly a ha u (lt_userVmaEnd hu (Nat.not_le.mp hHigh)) hOther
  · exact (hInv.mapUserPages (Prod.eta _).symm).2.apart.of_given

theorem address_spaces_isolated_two :
    let s := ((((boot sampleImage fun _ _ => 0).given []).vmmCreateAddressSpace sampleImage).2.given
      []).vmmCreateAddressSpace sampleImage
    (s.1 = some 1 ∧ Fresh sampleImage s.2.allocated [0x6000]) ∧
      Apart sampleImage s.2 ((s.2.given [0x6000]).vmmMapUserPage sampleImage 1 0x400000 0x9000 vmWrite).2
        (some 1) := by
  intro s
  have hReach : Reachable sampleImage s.2 :=
    ⟨fun _ _ => 0, Or.inl (Run.call .createAddressSpace []
      (Run.call .createAddressSpace [] (Run.refl _) (by decide)) (by decide +kernel))⟩
  have hFresh : Fresh sampleImage s.2.allocated [0x6000] := by decide +kernel
  refine ⟨⟨by decide +kernel, hFresh⟩, ?_⟩
  exact ((address_spaces_isolated hReach hFresh).2.1 1 0x400000 0x9000 vmWrite).1

end UnixOS.Paging
