import UnixOS.Fs.VfsHeapSpec

/-! # Path operations and the bytes in use

What `heap_used` is after an open and its close, and after the path operations that change nothing.
-/

namespace UnixOS.Fs

open KHeap

variable {grant : Nat → Option Nat} {s : Ramfs} {kids : Nat → List Nat} {n m : Nat} {h h' h₁ : KHeap}
  {d : DentryPtr} {dir : Nat} {path : List Char}

/-! ### Renaming -/

theorem Ramfs.TreeInv.rename_returns (hTree : s.TreeInv kids) {p t q : Nat} (ht : t ∈ kids p)
    (hq : s.view.live q) (name : List Char) :
    ∃ s' ret, s.ramfsRename p t q name = some (s', ret) ∧ (ret ≠ 0 → s' = s) := by
  obtain ⟨r, hLookup, -, -⟩ := hTree.lookup hq name
  simp only [Ramfs.ramfsRename, hLookup, Option.bind_eq_bind, Option.bind_some]
  cases r with
  | some c => exact ⟨s, _, rfl, fun _ => rfl⟩
  | none =>
    obtain ⟨s₁, hd, nx, hUnlink, hRoot, hCount, hView, hLinks⟩ := hTree.unlink ht
    have hq₁ : s₁.view.live q := by
      rw [hView]
      exact hq
    obtain ⟨i, hInode⟩ := Ramfs.live_iff.mp hq₁
    simp only [hUnlink, Option.bind_some]
    by_cases hSame : p = q
    · subst hSame
      simp only [ne_eq, not_true, if_false, hInode, Option.bind_some, pure]
      exact ⟨_, _, rfl, fun hBad => absurd rfl hBad⟩
    · simp only [ne_eq, hSame, not_false_iff, if_true, hInode, Option.bind_some, pure]
      exact ⟨_, _, rfl, fun hBad => absurd rfl hBad⟩

theorem At.keep (hAt : At s n h d dir) (hRuns : Runs m h h')
    (hKept : ∀ a, d = .block a → h'.blocks a = h.blocks a) : At s n h' d dir := by
  cases d with
  | root => exact hAt
  | block a =>
    obtain ⟨hn, ha, i, b, mode, b', hi, hBlock, hInode⟩ := hAt
    exact ⟨hn, ha.trans_le hRuns.next, i, b, mode, b', hi.trans_le hRuns.next,
      (hKept a rfl).trans hBlock, hRuns.stays hInode⟩

theorem At.mono (hAt : At s n h d dir) (hm : m ≤ n) : At s m h d dir := by
  cases d with
  | root => exact hAt
  | block a => exact ⟨hm.trans hAt.1, hAt.2⟩

theorem At.ne_later {d' : DentryPtr} {dir' : Nat} (hAt : At s n h₁ d dir) (hLater : At s h₁.next h d' dir')
    {a : Nat} (ha : d' = .block a) : d ≠ .block a := by
  subst ha
  rintro rfl
  obtain ⟨-, hBelow, -⟩ := hAt
  exact absurd hLater.1 (Nat.not_le.mpr hBelow)

theorem free_old {d' : DentryPtr} {c b i p q : Nat} (hOld : At s n h d p) (hNew : At s n h d' q)
    (hApart : ∀ a, d' = .block a → d ≠ .block a) (hn : n ≤ c) (hc : c < h.next)
    (hBlock : h.blocks c = some ⟨.dentry (some d) (some i), b⟩) (hNe : d ≠ .block c) (hNe' : d' ≠ .block c) :
    ∃ h', h.vfsFreeDentryChain (.block c) = some h' ∧ Runs n h h' ∧ At s n h' d' q ∧ h'.next = h.next ∧
      ∀ x, x ≠ c → d ≠ .block x → h'.blocks x = h.blocks x := by
  obtain ⟨h', hFree, hRuns, -, hNext, hFrame⟩ := free_child hn hc hBlock fun d hd => by
    cases hd
    exact ⟨p, hOld, hNe⟩
  have hOnly : ∀ x, x ≠ c → d ≠ .block x → h'.blocks x = h.blocks x :=
    fun x hx hd => hFrame x hx fun hSame => hd (Option.some.inj hSame)
  refine ⟨h', hFree, hRuns, hNew.keep hRuns fun a ha => ?_, hNext, hOnly⟩
  exact hOnly a (fun hSame => hNe' (hSame ▸ ha)) (hApart a ha)

def RenameClean (s : Ramfs) (old new : List Char) : Prop :=
  ¬ Passes s s.root (components old) ∧ ((components old).length = 1 →
    ¬ Passes s s.root (components new) ∧ ((components new).length = 1 → s.target old = some none))

theorem RenameClean.both {old new : List Char} (hClean : RenameClean s old new)
    (hOne : ¬ Passes s s.root (components old) → (components old).length = 1) :
    ¬ Passes s s.root (components old) ∧ ¬ Passes s s.root (components new) :=
  ⟨hClean.1, (hClean.2 (hOne hClean.1)).1⟩

theorem lookupParent_single (grant : Nat → Option Nat) (s : Ramfs) (h : KHeap)
    (hOne : (components path).length = 1) :
    ∃ name, heapLookupParent grant s h path = some (h, some (.root, name)) := by
  obtain ⟨name, hName⟩ := List.length_eq_one_iff.mp hOne
  refine ⟨name, ?_⟩
  rw [heapLookupParent, hName, heapWalk]

theorem Leaves.both {clean clean' : Prop} {h₂ : KHeap} (hFirst : Leaves grant h h₁ clean)
    (hSecond : Leaves grant h₁ h₂ clean') : Leaves grant h h₂ (clean ∧ clean') where
  runs := hFirst.runs.trans (hSecond.runs.mono hFirst.runs.next)
  same hClean := (hSecond.same hClean.2).trans (hFirst.same hClean.1)
  leaks hNot hAll := by
    by_cases hClean : clean
    · exact (hSecond.leaks (fun hYes => hNot ⟨hClean, hYes⟩) hAll).later hFirst.runs.next
    · exact (hFirst.leaks hClean hAll).stays hSecond.runs

theorem Leaves.iff {clean clean' : Prop} (hLeaves : Leaves grant h h' clean) (hIff : clean' ↔ clean) :
    Leaves grant h h' clean' :=
  ⟨hLeaves.runs, fun hClean => hLeaves.same (hIff.mp hClean),
    fun hNot => hLeaves.leaks fun hClean => hNot (hIff.mpr hClean)⟩

theorem Leaves.refused {clean clean' : Prop} (hLeaves : Leaves grant h h' clean) (hImp : clean' → clean)
    {t : Nat} (hNo : grant t = none) : Leaves grant h h' clean' where
  runs := hLeaves.runs
  same hClean := hLeaves.same (hImp hClean)
  leaks _ hAll := by
    have hSome := hAll t
    rw [hNo] at hSome
    cases hSome

theorem Leaves.leaky {clean : Prop} (hRuns : Runs h.next h h') (hLeak : Leaks h h') (hNot : ¬ clean) :
    Leaves grant h h' clean :=
  ⟨hRuns, fun hClean => absurd hClean hNot, fun _ _ => hLeak⟩

theorem rename_spec (hTree : s.TreeInv kids) (hPos : ∀ t b, grant t = some b → 0 < b) (hb : h.Bounded)
    (old new : List Char) :
    ∃ h' s' ret, heapRename grant s h old new = some (h', s', ret) ∧ (ret ≠ 0 → s' = s) ∧
      Leaves grant h h' (RenameClean s old new) := by
  obtain ⟨h₁, r, hOld, hb₁, hLeft₁, hFrom⟩ := heapLookupParent_spec hTree hPos hb old
  simp only [heapRename, hOld, Option.bind_eq_bind, Option.bind_some]
  rcases r with - | ⟨oldParent, oldName⟩
  · refine ⟨h₁, s, _, rfl, fun _ => rfl, hLeft₁.iff ⟨And.left, fun hNo => ⟨hNo, fun hOne => ?_⟩⟩⟩
    obtain ⟨name, hFound⟩ := lookupParent_single grant s h hOne
    rw [hOld] at hFound
    cases hFound
  obtain ⟨p, hAtOld, hLiveOld, hPathOld, hOldRoot⟩ := hFrom oldParent oldName rfl
  have hOldOne : ¬ Passes s s.root (components old) → (components old).length = 1 := by
    intro hNo
    rw [(hOldRoot hNo).2]
    rfl
  obtain ⟨h₂, r, hNew, hb₂, hLeft₂, hTo⟩ := heapLookupParent_spec hTree hPos hb₁ new
  have hBoth := hLeft₁.both hLeft₂
  have hAtOld₂ := hAtOld.runs hLeft₂.runs
  simp only [hNew, Option.bind_some]
  rcases r with - | ⟨newParent, newName⟩
  · obtain ⟨h₃, hFree, hRuns, hSame⟩ := hAtOld₂.free
    simp only [hFree, Option.bind_some]
    have hLeft₃ := hBoth.then hRuns fun hClean => by rw [hSame (hOldRoot hClean.1).1]
    refine ⟨h₃, s, _, rfl, fun _ => rfl, hLeft₃.iff ⟨fun hClean => hClean.both hOldOne, ?_⟩⟩
    rintro ⟨hNo, hNo'⟩
    refine ⟨hNo, fun _ => ⟨hNo', fun hOne => ?_⟩⟩
    obtain ⟨name, hFound⟩ := lookupParent_single grant s h₁ hOne
    rw [hNew] at hFound
    cases hFound
  obtain ⟨q, hAtNew, hLiveNew, hPathNew, hNewRoot⟩ := hTo newParent newName rfl
  have hBase := hLeft₁.runs.next
  have hn := hBase.trans hLeft₂.runs.next
  have hAtNew₂ : At s h.next h₂ newParent q := hAtNew.mono hBase
  have hApart : ∀ a, newParent = .block a → oldParent ≠ .block a := fun a => hAtOld.ne_later hAtNew
  have hOldAlone : ∀ h', Runs h₂.next h₂ h' → ∀ d, some oldParent = some d →
      ∃ dir, At s h.next h' d dir ∧ d ≠ .block h₂.next := by
    intro h' hTo d hd
    cases hd
    exact ⟨p, hAtOld₂.runs hTo, hAtOld₂.ne_next⟩
  dsimp only
  obtain ⟨hRefused, hNo⟩ | ⟨b, hGiven, -⟩ := kzalloc_cases grant h₂ (.dentry (some oldParent) none)
  · rw [hRefused]
    have hTick := runs_tick h₂.next h₂ (h₂.tick + 1)
    obtain ⟨h₃, hFree, hRuns, hSame, -, hOnly⟩ := (hAtOld₂.runs hTick).free_only
    have hAtNew₃ := (hAtNew₂.runs hTick).keep hRuns fun a ha => hOnly a (hApart a ha)
    obtain ⟨h₄, hFree', hRuns', hSame'⟩ := hAtNew₃.free
    simp only [hFree, hFree', Option.bind_some]
    have hLeft₄ := hBoth.then (((hTick.mono hn).trans hRuns).trans hRuns') fun hClean => by
      rw [hSame' (hNewRoot hClean.2).1, hSame (hOldRoot hClean.1).1]
    exact ⟨h₄, s, _, rfl, fun _ => rfl, hLeft₄.refused (fun hClean => hClean.both hOldOne) hNo⟩
  rw [hGiven]
  have hPushed := runs_push (n := h₂.next) le_rfl hb₂ (.dentry (some oldParent) none) b
  obtain ⟨h₃, hInto, hRuns, hNext, hLooked⟩ := looked grant hTree hLiveOld hb₂ (some oldParent) oldName b
  simp only [(hAtOld₂.runs hPushed).dirOf, hInto, Option.bind_some]
  cases hLooked with
  | miss b hBlock hInode hBack hWhy =>
    obtain ⟨h₄, hFree, hRest, hSame, -⟩ := free_child hn hNext hBlock (hOldAlone h₃ hRuns)
    simp only [hInode, hFree, Option.bind_some]
    have hLeft₄ := hBoth.then ((hRuns.mono hn).trans hRest) fun hClean => by
      rw [hSame (Or.inr (congrArg some (hOldRoot hClean.1).1)), hBack]
    refine ⟨h₄, s, _, rfl, fun _ => rfl, ?_⟩
    obtain hMissing | ⟨u, hNo⟩ := hWhy
    · have hTarget : s.target old = some none := by
        simp only [Ramfs.target, hPathOld, Option.bind_eq_bind, Option.bind_some, hMissing]
      exact hLeft₄.iff ⟨fun hClean => hClean.both hOldOne,
        fun hClean => ⟨hClean.1, fun _ => ⟨hClean.2, fun _ => hTarget⟩⟩⟩
    · exact hLeft₄.refused (fun hClean => hClean.both hOldOne) hNo
  | hit e m i b b' hBlock hInode hOwn hFresh hi hFound hGrant =>
    have hLeak : Leaks h h₃ := by
      obtain ⟨u, hu⟩ := hGrant
      exact ⟨i, e, m, b', hn.trans hFresh, hPos u b' hu, hOwn⟩
    have hNot : ¬ RenameClean s old new := by
      intro hClean
      have hBoth := hClean.both hOldOne
      have hNewOne : (components new).length = 1 := by
        rw [(hNewRoot hBoth.2).2]
        rfl
      have hMissing := (hClean.2 (hOldOne hBoth.1)).2 hNewOne
      simp only [Ramfs.target, hPathOld, Option.bind_eq_bind, Option.bind_some, hFound] at hMissing
      cases hMissing
    have hUpTo₃ : Runs h.next h h₃ := hBoth.runs.trans (hRuns.mono hn)
    simp only [hInode]
    obtain ⟨hNoChild, -⟩ | ⟨b₂, hChild, -⟩ := kzalloc_cases grant h₃ (.dentry (some newParent) none)
    · rw [hNoChild]
      have hTick := hRuns.trans (runs_tick h₂.next h₃ (h₃.tick + 1))
      obtain ⟨h₄, hFree, hRest, hAtNew₄, -, -⟩ := free_old (hAtOld₂.runs hTick) (hAtNew₂.runs hTick) hApart hn
        hNext hBlock hAtOld₂.ne_next hAtNew₂.ne_next
      obtain ⟨h₅, hFree', hRest', -⟩ := hAtNew₄.free
      simp only [hFree, hFree', Option.bind_some]
      have hAfter := ((runs_tick h.next h₃ (h₃.tick + 1)).trans hRest).trans hRest'
      exact ⟨h₅, s, _, rfl, fun _ => rfl, .leaky (hUpTo₃.trans hAfter) (hLeak.stays hAfter) hNot⟩
    · rw [hChild]
      have hb₃ := hRuns.bounded hb₂
      have hPush := runs_push (n := h₃.next) le_rfl hb₃ (.dentry (some newParent) none) b₂
      have hTo₄ := hRuns.trans (hPush.mono hRuns.next)
      have hAtNew₄ := hAtNew₂.runs hTo₄
      obtain ⟨r, hLookup, hOf, -⟩ := hTree.lookup hLiveOld oldName
      obtain ⟨s', ret, hRename, hTreeSame⟩ := hTree.rename_returns (hOf e (by
        rw [hFound] at hLookup
        exact (Option.some.inj hLookup).symm)).1 hLiveNew newName
      simp only [hAtNew₄.dirOf, hRename, Option.bind_some]
      have hNe : h₂.next ≠ h₃.next := hNext.ne
      have hOldBlock := (push_of_ne (h := h₃) hNe (.dentry (some newParent) none) b₂).trans hBlock
      obtain ⟨h₅, hFree, hRest, hAtNew₅, hNext₅, hOnly⟩ := free_old (hAtOld₂.runs hTo₄) hAtNew₄ hApart hn
        (Nat.lt_succ_of_lt hNext) hOldBlock hAtOld₂.ne_next hAtNew₂.ne_next
      have hNewBlock := (hOnly h₃.next hNe.symm (hAtOld₂.runs hRuns).ne_next).trans
        (push_self h₃ (.dentry (some newParent) none) b₂)
      obtain ⟨h₆, hFree', hRest', -⟩ := free_child (s := s) (hn.trans hRuns.next)
        (hNext₅ ▸ Nat.lt_succ_self h₃.next) hNewBlock fun d hd => by
          cases hd
          exact ⟨q, hAtNew₅, (hAtNew₂.runs hRuns).ne_next⟩
      simp only [hFree, hFree', Option.bind_some]
      have hAfter := ((hPush.mono (hn.trans hRuns.next)).trans hRest).trans hRest'
      exact ⟨h₆, s', ret, rfl, hTreeSame, .leaky (hUpTo₃.trans hAfter) (hLeak.stays hAfter) hNot⟩

/-! ### Opening and closing -/

def eBadF : Int := 9

/-- `vfs_open` without `O_CREAT`, then `vfs_close` of what it returned. -/
def openClose (grant : Nat → Option Nat) (s : Ramfs) (h : KHeap) (path : List Char) :
    Option (KHeap × Int) := do
  match ← heapOpen grant s h path with
  | (h, none) => return (h, -eBadF)
  | (h, some f) => return (← heapClose h f, 0)

theorem close_root (hb : h.Bounded) (b : Nat) :
    ∃ h', heapClose (h.push (.file .root) b) h.next = some h' ∧ Runs h.next h h' ∧
      h'.blocks = h.blocks := by
  have hFile := push_self h (.file .root) b
  simp only [heapClose, hFile, free_root, Option.bind_eq_bind, Option.bind_some, kfree_eq hFile]
  refine ⟨_, rfl, (runs_push le_rfl hb _ _).trans (runs_drop le_rfl ?_), drop_push hb _ b⟩
  intro p m b hBad
  rw [hFile] at hBad
  cases hBad

theorem openClose_root (hb : h.Bounded) (hRoot : pathComponents path = [])
    (hFile : path = ['/'] → (grant h.tick).isSome) :
    ∃ h' ret, openClose grant s h path = some (h', ret) ∧ Runs h.next h h' ∧ h'.blocks = h.blocks := by
  unfold openClose heapOpen
  by_cases hEmpty : path = []
  · rw [if_pos hEmpty]
    exact ⟨h, _, rfl, Runs.refl _ h, rfl⟩
  rw [if_neg hEmpty]
  obtain ⟨hRefused, hNo⟩ | ⟨b, hGiven, -⟩ := kzalloc_cases grant h (.file .root)
  · by_cases hSlash : path = ['/']
    · have hSome := hFile hSlash
      rw [hNo] at hSome
      cases hSome
    · rw [if_neg hSlash, if_pos ((Vfs.compare_root_iff hEmpty).mpr hRoot), hRefused]
      exact ⟨_, _, rfl, runs_tick .., rfl⟩
  · obtain ⟨h', hClose, hAfter⟩ := close_root hb b
    refine ⟨h', 0, ?_, hAfter⟩
    by_cases hSlash : path = ['/']
    · simp only [if_pos hSlash, hGiven, Option.bind_eq_bind, Option.bind_some, hClose, pure]
    · simp only [if_neg hSlash, if_pos ((Vfs.compare_root_iff hEmpty).mpr hRoot), hGiven,
        Option.bind_eq_bind, Option.bind_some, hClose, pure]

theorem passes_of_target {c : Nat} (hTree : s.TreeInv kids) (hExists : s.target path = some (some c))
    (hMany : (components path).length ≠ 1) : Passes s s.root (components path) := by
  rw [Ramfs.target, Ramfs.vfsLookupParent] at hExists
  cases hNames : components path with
  | nil =>
    rw [hNames] at hExists
    cases hExists
  | cons name rest =>
    cases rest with
    | nil =>
      rw [hNames] at hMany
      exact absurd rfl hMany
    | cons name' rest =>
      obtain ⟨r, hLookup, -, -⟩ := hTree.lookup hTree.rooted.root_live name
      simp only [hNames, Ramfs.walkParent, hLookup, Option.bind_eq_bind, Option.bind_some] at hExists
      cases r with
      | none => cases hExists
      | some e => exact ⟨e, hLookup⟩

theorem heapOpen_spec (hTree : s.TreeInv kids) (hPos : ∀ t b, grant t = some b → 0 < b) (hb : h.Bounded)
    {c : Nat} (hExists : s.target path = some (some c)) :
    ∃ h' r, heapOpen grant s h path = some (h', r) ∧ Runs h.next h h' ∧
      (∀ f, r = some f → Opened h.next h' f) ∧ ((∀ t, (grant t).isSome) → Leaks h h') := by
  have hNames : pathComponents path ≠ [] := by
    intro hNil
    rw [Ramfs.target, Ramfs.vfsLookupParent, Vfs.components_eq_nil.mpr hNil] at hExists
    cases hExists
  have hEmpty : path ≠ [] := by
    rintro rfl
    exact hNames rfl
  have hNotRoot : path ≠ ['/'] := by
    rintro rfl
    exact hNames rfl
  have hOther : ¬ pathCompare ['/'] path = true := fun hSame => hNames ((Vfs.compare_root_iff hEmpty).mp hSame)
  obtain ⟨h₁, r, hWalk, hb₁, hLeaves, hParent⟩ := heapLookupParent_spec hTree hPos hb path
  have hn := hLeaves.runs.next
  simp only [heapOpen, if_neg hEmpty, if_neg hNotRoot, if_neg hOther, hWalk, Option.bind_eq_bind,
    Option.bind_some]
  rcases r with - | ⟨parent, name⟩
  · have hPass : Passes s s.root (components path) := by
      refine passes_of_target hTree hExists fun hOne => ?_
      obtain ⟨name, hFound⟩ := lookupParent_single grant s h hOne
      rw [hWalk] at hFound
      cases hFound
    have hLeak := hLeaves.leaks (not_not.mpr hPass)
    dsimp only
    split
    case isTrue hNothing =>
      refine ⟨h₁, none, rfl, hLeaves.runs, ?_, hLeak⟩
      intro f hf
      cases hf
    case isFalse hName =>
      obtain ⟨h₂, r, hOpen, hRuns, hFile, -⟩ := openChild_spec (d := .root) hTree hPos hb₁ hn rfl
        hTree.rooted.root_live ((skipSlashes path).take nameMax)
      exact ⟨h₂, r, hOpen, hLeaves.runs.trans hRuns, hFile, fun hAll => (hLeak hAll).stays hRuns⟩
  · obtain ⟨dir, hAt, hLive, hPath, -⟩ := hParent parent name rfl
    have hLookup : s.ramfsLookupChild dir name = some (some c) := by
      simpa only [Ramfs.target, hPath, Option.bind_eq_bind, Option.bind_some] using hExists
    obtain ⟨h₂, r, hOpen, hRuns, hFile, hLeak⟩ := openChild_spec hTree hPos hb₁ hn hAt hLive name
    exact ⟨h₂, r, hOpen, hLeaves.runs.trans hRuns, hFile, fun hAll => (hLeak ⟨c, hLookup⟩ hAll).later hn⟩

theorem openClose_spec (hTree : s.TreeInv kids) (hPos : ∀ t b, grant t = some b → 0 < b) (hb : h.Bounded)
    {c : Nat} (hExists : s.target path = some (some c)) :
    ∃ h' ret, openClose grant s h path = some (h', ret) ∧ Runs h.next h h' ∧
      ((∀ t, (grant t).isSome) → Leaks h h') := by
  obtain ⟨h₁, r, hOpen, hRuns, hFile, hLeak⟩ := heapOpen_spec (h := h) hTree hPos hb hExists
  simp only [openClose, hOpen, Option.bind_eq_bind, Option.bind_some]
  cases r with
  | none => exact ⟨h₁, _, rfl, hRuns, hLeak⟩
  | some f =>
    obtain ⟨h₂, hClose, hRest⟩ := close_spec (hFile f rfl)
    simp only [hClose, Option.bind_some]
    exact ⟨h₂, _, rfl, hRuns.trans hRest, fun hAll => (hLeak hAll).stays hRest⟩

/-! ### All calls -/

def Exists (s : Ramfs) (path : List Char) : Prop :=
  pathComponents path = [] ∨ ∃ c, s.target path = some (some c)

inductive LookupCall where
  | openClose (path : List Char)
  | mkdir (path : List Char) (mode : UInt32) (addr : Nat)
  | unlink (path : List Char)
  | rmdir (path : List Char)
  | rename (old new : List Char)

namespace LookupCall

def run (grant : Nat → Option Nat) (s : Ramfs) (h : KHeap) : LookupCall → Option (KHeap × Ramfs × Int)
  | .openClose path => (Fs.openClose grant s h path).map fun (h, ret) => (h, s, ret)
  | .mkdir path mode addr => heapMkdir grant s h path mode addr
  | .unlink path => heapUnlink grant s h path
  | .rmdir path => heapRmdir grant s h path
  | .rename old new => heapRename grant s h old new

/-- The calls in question: an open of what exists, a directory made where something is, a removal of
what is missing, and any rename. For `/` the open needs the memory of its file. -/
def InScope (grant : Nat → Option Nat) (s : Ramfs) (h : KHeap) : LookupCall → Prop
  | .openClose path => Exists s path ∧ (path = ['/'] → (grant h.tick).isSome)
  | .mkdir path _ _ => Exists s path
  | .unlink path => s.target path = some none
  | .rmdir path => s.target path = some none
  | .rename _ _ => True

def Clean (s : Ramfs) : LookupCall → Prop
  | .openClose path => pathComponents path = []
  | .mkdir path _ _ => ¬ Passes s s.root (components path)
  | .unlink path => ¬ Passes s s.root (components path)
  | .rmdir path => ¬ Passes s s.root (components path)
  | .rename old new => RenameClean s old new

theorem spec (hTree : s.TreeInv kids) (hPos : ∀ t b, grant t = some b → 0 < b) (hb : h.Bounded)
    (call : LookupCall) (hScope : call.InScope grant s h) :
    ∃ h' s' ret, call.run grant s h = some (h', s', ret) ∧ (ret ≠ 0 → s' = s) ∧
      Leaves grant h h' (call.Clean s) := by
  cases call with
  | openClose path =>
    obtain ⟨hRoot | ⟨c, hExists⟩, hFile⟩ := hScope
    · obtain ⟨h', ret, hRun, hRuns, hSame⟩ := openClose_root (s := s) hb hRoot hFile
      refine ⟨h', s, ret, ?_, fun _ => rfl, hRuns, fun _ => hSame, fun hNot => absurd hRoot hNot⟩
      rw [run, hRun, Option.map_some]
    · obtain ⟨h', ret, hRun, hRuns, hLeak⟩ := openClose_spec (h := h) hTree hPos hb hExists
      refine ⟨h', s, ret, ?_, fun _ => rfl, hRuns, fun hRoot => ?_, fun _ => hLeak⟩
      · rw [run, hRun, Option.map_some]
      · rw [Ramfs.target, Ramfs.vfsLookupParent, Vfs.components_eq_nil.mpr hRoot] at hExists
        cases hExists
  | mkdir path mode addr =>
    obtain hRoot | ⟨c, hExists⟩ := hScope
    · have hNames := Vfs.components_eq_nil.mpr hRoot
      refine ⟨h, s, -eNoEnt, ?_, fun _ => rfl, Runs.refl _ h, fun _ => rfl, fun hNot => ?_⟩
      · simp only [run, heapMkdir, heapLookupParent, hNames, heapWalk]
        rfl
      · refine absurd (fun hPass => ?_) hNot
        rw [hNames] at hPass
        exact hPass
    · obtain ⟨h', ret, hRun, hLeaves⟩ := mkdir_spec hTree hPos hb hExists mode addr
      exact ⟨h', s, ret, hRun, fun _ => rfl, hLeaves⟩
  | unlink path =>
    obtain ⟨h', ret, hRun, hLeaves⟩ := remove_spec hTree hPos hb hScope _ _
    exact ⟨h', s, ret, hRun, fun _ => rfl, hLeaves⟩
  | rmdir path =>
    obtain ⟨h', ret, hRun, hLeaves⟩ := remove_spec hTree hPos hb hScope _ _
    exact ⟨h', s, ret, hRun, fun _ => rfl, hLeaves⟩
  | rename old new => exact rename_spec hTree hPos hb old new

end LookupCall

/-- A failed call leaves the tree as it was. The used bytes are the same after a clean call, and only after such a one if
the heap grants every request. -/
theorem lookups_conserve_heap_iff (s : Ramfs) (kids : Nat → List Nat) (hTree : s.TreeInv kids)
    (grant : Nat → Option Nat) (hPos : ∀ t b, grant t = some b → 0 < b) (h : KHeap) (hb : h.Bounded)
    (call : LookupCall) (hScope : call.InScope grant s h) :
    ∃ h' s' ret, call.run grant s h = some (h', s', ret) ∧ (ret ≠ 0 → s' = s) ∧
      (call.Clean s → h'.heapUsed = h.heapUsed) ∧
      ((∀ t, (grant t).isSome) → (h'.heapUsed = h.heapUsed ↔ call.Clean s)) := by
  obtain ⟨h', s', ret, hRun, hTreeSame, hLeaves⟩ := call.spec hTree hPos hb hScope
  have hSame : call.Clean s → h'.heapUsed = h.heapUsed :=
    fun hClean => heapUsed_eq hb hLeaves.runs.next (hLeaves.same hClean)
  refine ⟨h', s', ret, hRun, hTreeSame, hSame, fun hAll => ⟨fun hEq => ?_, hSame⟩⟩
  by_contra hNot
  exact ((hLeaves.leaks hNot hAll).heapUsed_lt hb hLeaves.runs).ne' hEq

def emptyHeap : KHeap := ⟨fun _ => none, 0, 0⟩

theorem lookups_conserve_heap_missing :
    (chain [['a']]).TreeInv (chainKids [['a']]) ∧ emptyHeap.Bounded ∧
      (LookupCall.unlink ['/', 'b', '/', 'c']).InScope (fun _ => some 64) (chain [['a']]) emptyHeap ∧
      (LookupCall.unlink ['/', 'b', '/', 'c']).Clean (chain [['a']]) ∧
      ∃ h' s' ret, (LookupCall.unlink ['/', 'b', '/', 'c']).run (fun _ => some 64) (chain [['a']])
        emptyHeap = some (h', s', ret) ∧ (ret ≠ 0 → s' = chain [['a']]) ∧ h'.heapUsed = 0 := by
  have hTree : (chain [['a']]).TreeInv (chainKids [['a']]) := treeInv_chain (by decide)
  have hb : emptyHeap.Bounded := fun _ _ => rfl
  have hScope : (LookupCall.unlink ['/', 'b', '/', 'c']).InScope (fun _ => some 64) (chain [['a']])
    emptyHeap := rfl
  have hClean : (LookupCall.unlink ['/', 'b', '/', 'c']).Clean (chain [['a']]) := by
    rintro ⟨e, hFound⟩
    cases hFound
  obtain ⟨h', s', ret, hRun, hSame, hUsed, -⟩ := lookups_conserve_heap_iff (chain [['a']])
    (chainKids [['a']]) hTree (fun _ => some 64) (fun t b hb => by cases hb; decide) emptyHeap hb
    (.unlink ['/', 'b', '/', 'c']) hScope
  exact ⟨hTree, hb, hScope, hClean, h', s', ret, hRun, hSame, hUsed hClean⟩

theorem open_close_leaks_inode :
    (chain [['a']]).TreeInv (chainKids [['a']]) ∧
      (LookupCall.openClose ['/', 'a']).InScope (fun _ => some 64) (chain [['a']]) emptyHeap ∧
      emptyHeap.heapUsed = 0 ∧
      ∃ h', openClose (fun _ => some 64) (chain [['a']]) emptyHeap ['/', 'a'] = some (h', 0) ∧
        h'.heapUsed = 64 := by
  refine ⟨treeInv_chain (by decide), ⟨Or.inr ⟨1, rfl⟩, fun hSlash => by cases hSlash⟩, rfl, _, rfl, ?_⟩
  decide +kernel

end UnixOS.Fs
