import UnixOS.Lib.BitFields

/-! # The memory of user programs

`sys_brk` moves the end of the lower half of the user heap window, `sys_mmap` hands out the upper half
from its start. Both work on 64-bit numbers that wrap.
-/

namespace UnixOS.Syscall

open BitFields

def eNoMem : Int := 12
def eNoSys : Int := 38

def pageSize : UInt64 := 4096

def userHeapStart : UInt64 := 0x10000000
def userHeapSize : UInt64 := 0x04000000
def mapAnonymous : UInt64 := 0x20

structure UserHeap where
  userBrkCurrent : UInt64
  userMmapCurrent : UInt64
  mem : UInt64 → UInt8

def userHeapInit (mem : UInt64 → UInt8) : UserHeap :=
  ⟨userHeapStart, userHeapStart + userHeapSize / 2, mem⟩

namespace UserHeap

variable (s : UserHeap)

def sysBrk (brk : UInt64) : UserHeap × UInt64 :=
  if brk = 0 ∨ brk < userHeapStart then (s, s.userBrkCurrent)
  else if brk > userHeapStart + userHeapSize / 2 then (s, s.userBrkCurrent)
  else ({ s with userBrkCurrent := brk }, brk)

def alignLen (len : UInt64) : UInt64 := (len + pageSize - 1) &&& ~~~(pageSize - 1)

/-- The bytes from `a` on, `len` of them, become zero; addresses wrap. -/
def zeroed (mem : UInt64 → UInt8) (a len : UInt64) : UInt64 → UInt8 := fun x =>
  if x - a < len then 0 else mem x

/-- `addr`, `prot` and `offset` are not looked at; `(int64_t)fd` is -1. -/
def sysMmap (len flags fd : UInt64) : UserHeap × Except Int UInt64 :=
  if flags &&& mapAnonymous = 0 ∨ fd ≠ 0xFFFFFFFFFFFFFFFF then (s, .error (-eNoSys))
  else
    let len := alignLen len
    if s.userMmapCurrent + len > userHeapStart + userHeapSize then (s, .error (-eNoMem))
    else
      let result := s.userMmapCurrent
      ({ s with userMmapCurrent := s.userMmapCurrent + len, mem := zeroed s.mem result len }, .ok result)

end UserHeap

/-! ### Runs -/

inductive Request where
  | brk (brk : UInt64)
  | mmap (addr len prot flags fd offset : UInt64)

structure Grant where
  start : UInt64
  len : UInt64
  asked : UInt64

namespace UserHeap

def next (s : UserHeap) : Request → UserHeap
  | .brk brk => (s.sysBrk brk).1
  | .mmap _ len _ flags fd _ => (s.sysMmap len flags fd).1

def after (s : UserHeap) (reqs : List Request) : UserHeap := reqs.foldl next s

def granted (s : UserHeap) : Request → Option Grant
  | .brk _ => none
  | .mmap _ len _ flags fd _ =>
    match (s.sysMmap len flags fd).2 with
    | .error _ => none
    | .ok result => some ⟨result, alignLen len, len⟩

def grants (s : UserHeap) : List Request → List Grant
  | [] => []
  | r :: reqs => (s.granted r).toList ++ (s.next r).grants reqs

end UserHeap

/-! ### The property -/

def lowerStart : Nat := 0x10000000
def upperStart : Nat := 0x12000000
def upperEnd : Nat := 0x14000000

def Grant.Apart (g g' : Grant) : Prop :=
  g.start.toNat + g.len.toNat ≤ g'.start.toNat ∨ g'.start.toNat + g'.len.toNat ≤ g.start.toNat

structure Grant.Proper (g : Grant) : Prop where
  above : upperStart ≤ g.start.toNat
  below : g.start.toNat + g.len.toNat ≤ upperEnd
  enough : g.asked ≤ g.len

def UserHeap.BrkInside (s : UserHeap) : Prop :=
  lowerStart ≤ s.userBrkCurrent.toNat ∧ s.userBrkCurrent.toNat ≤ upperStart

structure RegionsSound (s : UserHeap) (reqs : List Request) : Prop where
  apart : (s.grants reqs).Pairwise Grant.Apart
  proper : ∀ g ∈ s.grants reqs, g.Proper
  brk : ∀ n, (s.after (reqs.take n)).BrkInside
  grows : ∀ n, (s.after (reqs.take n)).userMmapCurrent ≤ (s.after (reqs.take (n + 1))).userMmapCurrent

def roundUp (n : Nat) : Nat := (n + 4095) / 4096 * 4096

/-- The request, if it is for an anonymous mapping, does not reach past the end of the address space. -/
def Request.Fits (s : UserHeap) : Request → Prop
  | .brk _ => True
  | .mmap _ len _ flags fd _ => flags &&& mapAnonymous ≠ 0 → fd = 0xFFFFFFFFFFFFFFFF →
    s.userMmapCurrent.toNat + roundUp len.toNat < 2 ^ 64

def UserHeap.FitsAlong (s : UserHeap) : List Request → Prop
  | [] => True
  | r :: reqs => r.Fits s ∧ (s.next r).FitsAlong reqs

/-! ### One request -/

section Steps

variable {s : UserHeap}

theorem toNat_alignLen (len : UInt64) :
    (UserHeap.alignLen len).toNat = (len.toNat + 4095) % 2 ^ 64 / 4096 * 4096 := by
  have hSum : (len + pageSize - 1).toNat = (len.toNat + 4095) % 2 ^ 64 := by
    have hPage : pageSize.toNat = 4096 := rfl
    have hOne : (1 : UInt64).toNat = 1 := rfl
    rw [UInt64.toNat_sub, UInt64.toNat_add, hPage, hOne]
    omega
  rw [UserHeap.alignLen, toNat_and_not_low (k := 12) _ (by decide) (by decide), hSum]
  rfl

structure UserHeap.Inside (s : UserHeap) : Prop where
  brk : s.BrkInside
  above : upperStart ≤ s.userMmapCurrent.toNat
  below : s.userMmapCurrent.toNat ≤ upperEnd

theorem UserHeap.Inside.sysBrk (h : s.Inside) (brk : UInt64) : (s.sysBrk brk).1.Inside := by
  unfold UserHeap.sysBrk
  split
  case isTrue hLow => exact h
  case isFalse hLow =>
    split
    case isTrue hHigh => exact h
    case isFalse hHigh =>
      push Not at hLow
      have hStart : userHeapStart.toNat ≤ brk.toNat := UInt64.le_iff_toNat_le.mp (UInt64.not_lt.mp hLow.2)
      have hEnd : brk.toNat ≤ (userHeapStart + userHeapSize / 2).toNat :=
        UInt64.le_iff_toNat_le.mp (UInt64.not_lt.mp hHigh)
      exact ⟨⟨hStart, hEnd⟩, h.above, h.below⟩

theorem mmap_cases (h : s.Inside) (addr len prot flags fd offset : UInt64) :
    let r := Request.mmap addr len prot flags fd offset
    (s.granted r = none ∧ s.next r = s ∧ r.Fits s) ∨
      ∃ g, s.granted r = some g ∧ (s.next r).userBrkCurrent = s.userBrkCurrent ∧
        (r.Fits s ∧ g.Proper ∧ g.start = s.userMmapCurrent ∧
            (s.next r).userMmapCurrent.toNat = g.start.toNat + g.len.toNat ∨
          ¬ r.Fits s ∧ (¬ g.Proper ∨ (s.next r).userMmapCurrent < s.userMmapCurrent)) := by
  intro r
  have hLen := toNat_alignLen len
  have hAdd : (s.userMmapCurrent + UserHeap.alignLen len).toNat =
      (s.userMmapCurrent.toNat + (UserHeap.alignLen len).toNat) % 2 ^ 64 := UInt64.toNat_add _ _
  have hAsked := len.toNat_lt
  have hAbove := h.above
  have hBelow := h.below
  unfold upperStart at hAbove
  unfold upperEnd at hBelow
  by_cases hKind : flags &&& mapAnonymous = 0 ∨ fd ≠ 0xFFFFFFFFFFFFFFFF
  · have hRun : s.sysMmap len flags fd = (s, .error (-eNoSys)) := if_pos hKind
    refine Or.inl ⟨by simp only [r, UserHeap.granted, hRun], by simp only [r, UserHeap.next, hRun], ?_⟩
    intro hFlags hFd
    exact absurd hKind (by simp [hFlags, hFd])
  have hFits : r.Fits s ↔ s.userMmapCurrent.toNat + roundUp len.toNat < 2 ^ 64 := by
    push Not at hKind
    exact ⟨fun hr => hr hKind.1 hKind.2, fun hr _ _ => hr⟩
  unfold roundUp at hFits
  by_cases hFull : s.userMmapCurrent + UserHeap.alignLen len > userHeapStart + userHeapSize
  · have hRun : s.sysMmap len flags fd = (s, .error (-eNoMem)) := by
      rw [UserHeap.sysMmap, if_neg hKind]
      exact if_pos hFull
    refine Or.inl ⟨by simp only [r, UserHeap.granted, hRun], by simp only [r, UserHeap.next, hRun], ?_⟩
    have hPast : upperEnd < (s.userMmapCurrent + UserHeap.alignLen len).toNat := hFull
    unfold upperEnd at hPast
    rw [hFits]
    omega
  · have hRun : s.sysMmap len flags fd = ({ s with
        userMmapCurrent := s.userMmapCurrent + UserHeap.alignLen len
        mem := UserHeap.zeroed s.mem s.userMmapCurrent (UserHeap.alignLen len) },
        .ok s.userMmapCurrent) := by
      rw [UserHeap.sysMmap, if_neg hKind]
      exact if_neg hFull
    have hRoom : (s.userMmapCurrent + UserHeap.alignLen len).toNat ≤ upperEnd :=
      Nat.le_of_not_lt hFull
    unfold upperEnd at hRoom
    refine Or.inr ⟨⟨s.userMmapCurrent, UserHeap.alignLen len, len⟩, ?_, ?_, ?_⟩
    · simp only [r, UserHeap.granted, hRun]
    · simp only [r, UserHeap.next, hRun]
    · simp only [r, UserHeap.next, hRun]
      by_cases hIn : r.Fits s
      · have hSum := hFits.mp hIn
        refine Or.inl ⟨hIn, ⟨h.above, ?_, ?_⟩, trivial, ?_⟩
        · unfold upperEnd
          dsimp only
          omega
        · rw [UInt64.le_iff_toNat_le]
          dsimp only
          omega
        · omega
      · have hWraps := mt hFits.mpr hIn
        refine Or.inr ⟨hIn, ?_⟩
        -- either the length itself wraps, and nothing is left of it, or the end of the region does
        by_cases hLost : 2 ^ 64 ≤ len.toNat + 4095
        · refine Or.inl fun hProper => ?_
          have hEnough := UInt64.le_iff_toNat_le.mp hProper.enough
          dsimp only at hEnough
          omega
        · refine Or.inr ?_
          rw [UInt64.lt_iff_toNat_lt]
          omega

end Steps

/-! ### Runs -/

section Runs

variable {s : UserHeap} {r : Request} {reqs : List Request}

theorem UserHeap.Inside.step (h : s.Inside) (hFits : r.Fits s) :
    (s.next r).Inside ∧ s.userMmapCurrent ≤ (s.next r).userMmapCurrent ∧
      ∀ g, s.granted r = some g → g.Proper ∧ s.userMmapCurrent ≤ g.start ∧
        g.start.toNat + g.len.toNat ≤ (s.next r).userMmapCurrent.toNat := by
  cases r with
  | brk brk =>
    refine ⟨h.sysBrk brk, ?_, nofun⟩
    have hSame : (s.sysBrk brk).1.userMmapCurrent = s.userMmapCurrent := by
      unfold UserHeap.sysBrk
      split
      · rfl
      · split <;> rfl
    exact UInt64.le_of_eq hSame.symm
  | mmap addr len prot flags fd offset =>
    rcases mmap_cases h addr len prot flags fd offset with
      ⟨hNone, hSame, -⟩ | ⟨g, hSome, hBrk, ⟨-, hProper, hStart, hEnd⟩ | ⟨hNot, -⟩⟩
    · rw [hSame, hNone]
      exact ⟨h, UInt64.le_refl _, nofun⟩
    · have hGrows : s.userMmapCurrent.toNat ≤ g.start.toNat + g.len.toNat := by
        rw [hStart]
        exact Nat.le_add_right _ _
      refine ⟨⟨?_, ?_, ?_⟩, ?_, ?_⟩
      · unfold UserHeap.BrkInside
        rw [hBrk]
        exact h.brk
      · rw [hEnd]
        exact h.above.trans hGrows
      · rw [hEnd]
        exact hProper.below
      · rw [UInt64.le_iff_toNat_le, hEnd]
        exact hGrows
      · intro g' hg'
        obtain rfl : g = g' := Option.some.inj (hSome.symm.trans hg')
        exact ⟨hProper, UInt64.le_of_eq hStart.symm, hEnd.ge⟩
    · exact absurd hFits hNot

theorem RegionsSound.head (h : RegionsSound s (r :: reqs)) :
    s.userMmapCurrent ≤ (s.next r).userMmapCurrent ∧ ∀ g, s.granted r = some g → g.Proper := by
  refine ⟨h.grows 0, fun g hg => h.proper g ?_⟩
  rw [UserHeap.grants, hg]
  exact List.mem_cons_self

theorem RegionsSound.tail (h : RegionsSound s (r :: reqs)) : RegionsSound (s.next r) reqs where
  apart := (List.pairwise_append.mp h.apart).2.1
  proper := fun g hg => h.proper g (List.mem_append_right _ hg)
  brk := fun n => h.brk (n + 1)
  grows := fun n => h.grows (n + 1)

theorem UserHeap.Inside.regionsSound (h : s.Inside) (hFits : s.FitsAlong reqs) :
    RegionsSound s reqs ∧ ∀ g ∈ s.grants reqs, s.userMmapCurrent ≤ g.start := by
  induction reqs generalizing s with
  | nil =>
    refine ⟨⟨List.Pairwise.nil, nofun, fun n => ?_, fun n => ?_⟩, nofun⟩
    · rw [List.take_nil]
      exact h.brk
    · rw [List.take_nil, List.take_nil]
      exact UInt64.le_refl _
  | cons r reqs ih =>
    obtain ⟨hNext, hGrows, hGrant⟩ := h.step hFits.1
    obtain ⟨hRest, hAbove⟩ := ih hNext hFits.2
    have hFirst : ∀ g ∈ (s.granted r).toList, s.granted r = some g := by
      intro g hg
      exact Option.mem_toList.mp hg
    refine ⟨⟨?_, ?_, ?_, ?_⟩, ?_⟩
    · refine List.pairwise_append.mpr ⟨?_, hRest.apart, ?_⟩
      · cases s.granted r with
        | none => exact List.Pairwise.nil
        | some g => exact List.pairwise_singleton _ g
      · intro g hg g' hg'
        have hBefore := (hGrant g (hFirst g hg)).2.2
        exact Or.inl (hBefore.trans (UInt64.le_iff_toNat_le.mp (hAbove g' hg')))
    · intro g hg
      rcases List.mem_append.mp hg with hNew | hOld
      · exact (hGrant g (hFirst g hNew)).1
      · exact hRest.proper g hOld
    · intro n
      cases n with
      | zero => exact h.brk
      | succ n => exact hRest.brk n
    · intro n
      cases n with
      | zero => exact hGrows
      | succ n => exact hRest.grows n
    · intro g hg
      rcases List.mem_append.mp hg with hNew | hOld
      · exact (hGrant g (hFirst g hNew)).2.1
      · exact UInt64.le_trans hGrows (hAbove g hOld)

theorem UserHeap.Inside.fitsAlong (h : s.Inside) (hSound : RegionsSound s reqs) : s.FitsAlong reqs := by
  induction reqs generalizing s with
  | nil => trivial
  | cons r reqs ih =>
    have hFits : r.Fits s := by
      cases r with
      | brk brk => trivial
      | mmap addr len prot flags fd offset =>
        obtain ⟨hGrows, hProper⟩ := hSound.head
        rcases mmap_cases h addr len prot flags fd offset with
          ⟨-, -, hFits⟩ | ⟨g, hSome, -, ⟨hFits, -⟩ | ⟨-, hShort | hBack⟩⟩
        · exact hFits
        · exact hFits
        · exact absurd (hProper g hSome) hShort
        · exact absurd hBack (UInt64.not_lt.mpr hGrows)
    exact ⟨hFits, ih (h.step hFits).1 hSound.tail⟩

end Runs

theorem userHeapInit_inside (mem : UInt64 → UInt8) : (userHeapInit mem).Inside := by
  have hBrk : (userHeapInit mem).userBrkCurrent.toNat = lowerStart := rfl
  have hMmap : (userHeapInit mem).userMmapCurrent.toNat = upperStart := rfl
  refine ⟨⟨hBrk.ge, ?_⟩, hMmap.ge, ?_⟩
  · rw [hBrk]
    decide
  · rw [hMmap]
    decide

/-- In a run of requests from the start the regions are apart, in place and long enough, and the two
ends move as they should, exactly if every anonymous request fits below the end of the address space. -/
theorem user_regions_iff (mem : UInt64 → UInt8) (reqs : List Request) :
    RegionsSound (userHeapInit mem) reqs ↔ (userHeapInit mem).FitsAlong reqs :=
  ⟨(userHeapInit_inside mem).fitsAlong, fun hFits => ((userHeapInit_inside mem).regionsSound hFits).1⟩

theorem mmap_grants_empty_region :
    let reqs : List Request := [.mmap 0 0xFFFFFFFFFFFFFFFF 3 0x20 0xFFFFFFFFFFFFFFFF 0]
    (userHeapInit fun _ => 0).grants reqs = [⟨0x12000000, 0, 0xFFFFFFFFFFFFFFFF⟩] ∧
      ¬ RegionsSound (userHeapInit fun _ => 0) reqs := by
  intro reqs
  have hGrants : (userHeapInit fun _ => 0).grants reqs = [⟨0x12000000, 0, 0xFFFFFFFFFFFFFFFF⟩] := rfl
  refine ⟨hGrants, fun hSound => ?_⟩
  have hProper := hSound.proper ⟨0x12000000, 0, 0xFFFFFFFFFFFFFFFF⟩ (by rw [hGrants]; exact List.mem_cons_self)
  exact absurd hProper.enough (by decide)

end UnixOS.Syscall
