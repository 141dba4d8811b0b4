import UnixOS.Fs.RamfsSession

/-! # Which operations reach a removed inode

Path walks stay inside the tree, where every pointer leads to a live inode. Only open files and
directory walks keep addresses from one operation to the next, so only they can come to an inode
that is gone.
-/

namespace UnixOS.Fs

open ByteMemory RootedTree SinglyLinked SiblingLists

namespace Ramfs

variable {s : Ramfs} {kids : Nat → List Nat} {a b c : Nat}

theorem TreeInv.exists_parent (h : TreeInv s kids) (hb : s.view.live b) (hRoot : b ≠ s.root) :
    ∃ a, b ∈ kids a := by
  obtain hSame | ⟨a, -, hEdge⟩ := Relation.ReflTransGen.cases_tail (h.rooted.reach hb)
  · exact absurd hSame hRoot
  · exact ⟨a, hEdge⟩

theorem TreeInv.parent_live (h : TreeInv s kids) (hTop : s.view.parent s.root = none)
    (hb : s.view.live b) (hParent : s.view.parent b = some a) : s.view.live a := by
  have hRoot : b ≠ s.root := by
    rintro rfl
    rw [hTop] at hParent
    cases hParent
  obtain ⟨p, hp⟩ := h.exists_parent hb hRoot
  rw [h.parent hp] at hParent
  exact Option.some.inj hParent ▸ (h.rooted.edge_live hp).1

theorem TreeInv.head_mem (h : TreeInv s kids) (hHead : s.view.head a = some c) : c ∈ kids a := by
  have hChain := h.links a
  rw [hHead] at hChain
  exact hChain.head_mem

theorem TreeInv.next_mem (h : TreeInv s kids) (hc : s.view.live c) (hRoot : c ≠ s.root)
    (hNext : s.view.next c = some b) : ∃ a, b ∈ kids a := by
  obtain ⟨p, hp⟩ := h.exists_parent hc hRoot
  exact ⟨p, (h.links p).next_mem hp hNext⟩

structure SameShape (i j : RamfsInode) : Prop where
  mode : j.mode = i.mode
  parent : j.parent = i.parent
  children : j.children = i.children
  sibling : j.sibling = i.sibling
  name : j.name = i.name

theorem view_modify {i j : RamfsInode} (hi : s.inodes a = some i) (h : SameShape i j) :
    (s.modify a fun _ => j).view = s.view := by
  have hInodes : ∀ x, (s.modify a fun _ => j).inodes x = if x = a then some j else s.inodes x := by
    intro x
    simp only [modify, hi, Option.map_some, Function.update_apply]
  have hField : ∀ {β : Type} (get : RamfsInode → Option β), get j = get i →
      (fun x => ((s.modify a fun _ => j).inodes x).bind get) = fun x => (s.inodes x).bind get := by
    intro β get hSame
    funext x
    rw [hInodes]
    split
    case isTrue hHere => rw [hHere, hi, Option.bind_some, Option.bind_some, hSame]
    case isFalse hOther => rfl
  have hSome : (fun x => ((s.modify a fun _ => j).inodes x).isSome = true) =
      fun x => (s.inodes x).isSome = true := by
    funext x
    rw [isSome_modify]
  have hMap : ∀ {β : Type} (get : RamfsInode → β), get j = get i →
      (fun x => ((s.modify a fun _ => j).inodes x).map get) = fun x => (s.inodes x).map get := by
    intro β get hSame
    funext x
    rw [hInodes]
    split
    case isTrue hHere => rw [hHere, hi, Option.map_some, Option.map_some, hSame]
    case isFalse hOther => rfl
  unfold view
  rw [hSome, hMap _ h.mode, hField _ h.parent, hField _ h.children, hField _ h.sibling,
    hMap _ h.name]

end Ramfs

theorem sameShape_vfsOpenInode (inode : RamfsInode) (flags : UInt32) :
    Ramfs.SameShape inode (vfsOpenInode inode flags).inode := by
  have hTrunc : Ramfs.SameShape inode (ramfsTruncateFile inode).1 := by
    unfold ramfsTruncateFile
    split <;> exact ⟨rfl, rfl, rfl, rfl, rfl⟩
  unfold vfsOpenInode
  split <;> split <;> first | exact hTrunc | exact ⟨rfl, rfl, rfl, rfl, rfl⟩

theorem sameShape_ramfsGrow {inode inode' : RamfsInode} {newSize : Nat}
    {kmalloc : Nat → Option Mem} (h : ramfsGrow inode newSize kmalloc = some inode') :
    Ramfs.SameShape inode inode' := by
  unfold ramfsGrow at h
  split at h
  case isTrue hSmall =>
    dsimp only at h
    split at h
    case h_1 => cases h
    case h_2 =>
      cases h
      exact ⟨rfl, rfl, rfl, rfl, rfl⟩
  case isFalse hLarge =>
    cases h
    exact ⟨rfl, rfl, rfl, rfl, rfl⟩

theorem sameShape_ramfsWrite (f : File) (buf : List UInt8) (kmalloc : Nat → Option Mem) :
    Ramfs.SameShape f.inode (ramfsWrite f buf kmalloc).1.inode := by
  unfold ramfsWrite
  dsimp only
  split
  case h_1 => exact ⟨rfl, rfl, rfl, rfl, rfl⟩
  case h_2 inode hGrow =>
    obtain ⟨hMode, hParent, hChildren, hSibling, hName⟩ := sameShape_ramfsGrow hGrow
    exact ⟨hMode, hParent, hChildren, hSibling, hName⟩

namespace Session

/-- What is kept is live or was removed, and a walk never stands at the root. -/
structure Inv (s : Session) : Prop where
  tree : ∃ kids, s.fs.TreeInv kids
  top : s.fs.view.parent s.fs.root = none
  used : ∀ a, s.fs.view.live a → a ∈ s.used
  gone : ∀ a ∈ s.removed, ¬ s.fs.view.live a ∧ a ∈ s.used
  held : ∀ a, s.Holds a → s.fs.view.live a ∨ a ∈ s.removed
  walkers : ∀ c, some (.child c) ∈ s.walks → c ≠ s.fs.root

variable {s s' : Session}

theorem Inv.live_iff (h : s.Inv) {a : Nat} (ha : s.Holds a) :
    s.fs.view.live a ↔ a ∉ s.removed := by
  constructor
  · exact fun hLive hGone => (h.gone a hGone).1 hLive
  · exact fun hKept => (h.held a ha).resolve_right hKept

theorem Inv.keep (h : s.Inv) (hView : s'.fs.view = s.fs.view) (hRoot : s'.fs.root = s.fs.root)
    (hCount : s'.fs.inodeCount = s.fs.inodeCount) (hUsed : s'.used = s.used)
    (hRemoved : s'.removed = s.removed) (hHolds : ∀ a, s'.Holds a → s.Holds a ∨ s.fs.view.live a)
    (hWalks : ∀ c, some (.child c) ∈ s'.walks → some (.child c) ∈ s.walks ∨ c ≠ s.fs.root) : s'.Inv := by
  obtain ⟨kids, hTree⟩ := h.tree
  refine ⟨⟨kids, hTree.congr hView hRoot hCount⟩, ?_, ?_, ?_, ?_, ?_⟩
  · rw [hView, hRoot]
    exact h.top
  · rw [hView, hUsed]
    exact h.used
  · rw [hView, hUsed, hRemoved]
    exact h.gone
  · intro a ha
    rw [hView, hRemoved]
    exact (hHolds a ha).elim (h.held a) Or.inl
  · intro c hc
    rw [hRoot]
    exact (hWalks c hc).elim (h.walkers c) id

theorem mem_of_join {α : Type} {xs : List (Option α)} {i : Nat} {x : α}
    (h : (xs[i]?).join = some x) : some x ∈ xs := by
  cases hEntry : xs[i]? with
  | none =>
    rw [hEntry] at h
    cases h
  | some entry =>
    rw [hEntry] at h
    obtain rfl : entry = some x := h
    exact List.mem_of_getElem? hEntry

theorem holds_file {h : Nat} {f : OpenFile} (hFile : s.file h = some f) : s.Holds f.privateData :=
  Or.inl ⟨f, mem_of_join hFile, rfl⟩

theorem holds_walk {w : Nat} {p : Walk} (hWalk : (s.walks[w]?).join = some p) : s.Holds p.addr :=
  Or.inr ⟨p, mem_of_join hWalk, rfl⟩

theorem holds_setFile {fs : Ramfs} {h : Nat} {f : Option OpenFile} {used removed : List Nat} {a : Nat}
    (hHolds : Holds ⟨fs, s.files.set h f, s.walks, used, removed⟩ a) :
    s.Holds a ∨ ∃ g, f = some g ∧ g.privateData = a := by
  obtain ⟨g, hg, rfl⟩ | hWalk := hHolds
  · obtain hOld | hNew := List.mem_or_eq_of_mem_set hg
    · exact Or.inl (Or.inl ⟨g, hOld, rfl⟩)
    · exact Or.inr ⟨g, hNew.symm, rfl⟩
  · exact Or.inl (Or.inr hWalk)

theorem holds_addFile {fs : Ramfs} {f : OpenFile} {used removed : List Nat} {a : Nat}
    (hHolds : Holds ⟨fs, s.files ++ [some f], s.walks, used, removed⟩ a) :
    s.Holds a ∨ a = f.privateData := by
  obtain ⟨g, hg, rfl⟩ | hWalk := hHolds
  · obtain hOld | hNew := List.mem_append.mp hg
    · exact Or.inl (Or.inl ⟨g, hOld, rfl⟩)
    · exact Or.inr (congrArg _ (Option.some.inj (List.mem_singleton.mp hNew)))
  · exact Or.inl (Or.inr hWalk)

/-- The operation returns; what is kept after it was kept before or is live, and it has removed
nothing but what a removal of its own hit. -/
def Goes (s : Session) (op : SessionOp) (r : Option Session) : Prop :=
  ∃ s', r = some s' ∧ s'.Inv ∧ (∀ a, s'.Holds a → s.Holds a ∨ s'.fs.view.live a) ∧
    ∀ a ∈ s'.removed, a ∈ s.removed ∨ (s.SparesHeld op → ¬ s.Holds a)

theorem Inv.stay (h : s.Inv) (op : SessionOp) : s.Goes op (some s) :=
  ⟨s, rfl, h, fun _ => Or.inl, fun _ => Or.inl⟩

theorem Inv.goes (h : s.Inv) (op : SessionOp) (hView : s'.fs.view = s.fs.view)
    (hRoot : s'.fs.root = s.fs.root) (hCount : s'.fs.inodeCount = s.fs.inodeCount)
    (hUsed : s'.used = s.used) (hRemoved : s'.removed = s.removed)
    (hHolds : ∀ a, s'.Holds a → s.Holds a ∨ s.fs.view.live a)
    (hWalks : ∀ c, some (.child c) ∈ s'.walks → some (.child c) ∈ s.walks ∨ c ≠ s.fs.root) : s.Goes op (some s') := by
  refine ⟨s', rfl, h.keep hView hRoot hCount hUsed hRemoved hHolds hWalks, ?_, ?_⟩
  · rw [hView]
    exact hHolds
  · intro a ha
    exact Or.inl (hRemoved ▸ ha)

/-! ### Files -/

theorem Inv.openInode (h : s.Inv) (op : SessionOp) {a : Nat} (ha : s.fs.view.live a)
    (flags : UInt32) : s.Goes op (s.openInode a flags) := by
  obtain ⟨inode, hInode⟩ := Ramfs.live_iff.mp ha
  simp only [Session.openInode, hInode, Option.bind_eq_bind, Option.bind_some]
  refine h.goes op ?_ rfl rfl rfl rfl ?_ fun _ => Or.inl
  · exact Ramfs.view_modify hInode (sameShape_vfsOpenInode inode flags)
  · intro x hx
    obtain hOld | rfl := holds_addFile (s := s) hx
    · exact Or.inl hOld
    · exact Or.inr ha

theorem Inv.readFile (h : s.Inv) {i count : Nat} (hAttached : s.Attached (.read i count)) :
    s.Goes (.read i count) (s.readFile i count) := by
  unfold Session.readFile
  split
  case h_1 hNone => exact h.stay _
  case h_2 f hFile =>
    split
    case isTrue hDir => exact h.stay _
    case isFalse hReg =>
      have hLive := (h.live_iff (holds_file hFile)).mpr
        (hAttached f hFile (Bool.eq_false_iff.mpr hReg))
      obtain ⟨inode, hInode⟩ := Ramfs.live_iff.mp hLive
      simp only [hInode, Option.bind_eq_bind, Option.bind_some]
      refine h.goes _ rfl rfl rfl rfl rfl ?_ fun _ => Or.inl
      intro a ha
      obtain hOld | ⟨g, hg, rfl⟩ := holds_setFile ha
      · exact Or.inl hOld
      · exact Or.inr (Option.some.inj hg ▸ hLive)

theorem Inv.writeFile (h : s.Inv) {i : Nat} {buf : List UInt8} {kmalloc : Nat → Option Mem}
    (hAttached : s.Attached (.write i buf kmalloc)) :
    s.Goes (.write i buf kmalloc) (s.writeFile i buf kmalloc) := by
  unfold Session.writeFile
  split
  case h_1 hNone => exact h.stay _
  case h_2 f hFile =>
    split
    case isTrue hDir => exact h.stay _
    case isFalse hReg =>
      have hLive := (h.live_iff (holds_file hFile)).mpr
        (hAttached f hFile (Bool.eq_false_iff.mpr hReg))
      obtain ⟨inode, hInode⟩ := Ramfs.live_iff.mp hLive
      simp only [hInode, Option.bind_eq_bind, Option.bind_some]
      refine h.goes _ ?_ rfl rfl rfl rfl ?_ fun _ => Or.inl
      · exact Ramfs.view_modify hInode (sameShape_ramfsWrite ⟨inode, f.iSize, f.fPos⟩ buf kmalloc)
      · intro a ha
        obtain hOld | ⟨g, hg, rfl⟩ := holds_setFile ha
        · exact Or.inl hOld
        · exact Or.inr (Option.some.inj hg ▸ hLive)

theorem Inv.closeFile (h : s.Inv) (i : Nat) : s.Goes (.close i) (some (s.closeFile i)) := by
  refine h.goes _ rfl rfl rfl rfl rfl ?_ fun _ => Or.inl
  intro a ha
  obtain hOld | ⟨g, hg, -⟩ := holds_setFile ha
  · exact Or.inl hOld
  · cases hg

/-! ### Directory walks -/

theorem visit_live {child : Option Nat} (h : ∀ c, child = some c → s.fs.view.live c) :
    s.visit child = some () := by
  cases child with
  | none => rfl
  | some c =>
    obtain ⟨i, hi⟩ := Ramfs.live_iff.mp (h c rfl)
    simp only [visit, hi, Option.map_some]

theorem Inv.startWalk (h : s.Inv) {i : Nat} (hAttached : s.Attached (.readdir i)) :
    s.Goes (.readdir i) (s.startWalk i) := by
  unfold Session.startWalk
  split
  case h_1 hNone => exact h.stay _
  case h_2 f hFile =>
    split
    case isFalse hReg => exact h.stay _
    case isTrue hDir =>
      have hLive := (h.live_iff (holds_file hFile)).mpr (hAttached f hFile hDir)
      obtain ⟨dir, hInode⟩ := Ramfs.live_iff.mp hLive
      simp only [hInode, Option.bind_eq_bind, Option.bind_some]
      split
      case isFalse hOther => exact h.stay _
      case isTrue hIsDir =>
        refine h.goes _ rfl rfl rfl rfl rfl ?_ ?_
        · rintro a (hOld | ⟨p, hWalk, rfl⟩)
          · exact Or.inl (Or.inl hOld)
          · obtain hOld | hNew := List.mem_append.mp hWalk
            · exact Or.inl (Or.inr ⟨p, hOld, rfl⟩)
            · obtain rfl : p = .dot f.privateData := Option.some.inj (List.mem_singleton.mp hNew)
              exact Or.inr hLive
        · intro c hc
          obtain hOld | hNew := List.mem_append.mp hc
          · exact Or.inl hOld
          · cases List.mem_singleton.mp hNew

theorem Inv.moveWalk (h : s.Inv) (w : Nat) (p : Option Walk)
    (hLive : ∀ q, p = some q → s.fs.view.live q.addr)
    (hRoot : ∀ c, p = some (.child c) → c ≠ s.fs.root) :
    s.Goes (.next w) (some { s with walks := s.walks.set w p }) := by
  refine h.goes _ rfl rfl rfl rfl rfl ?_ ?_
  · rintro a (hOld | ⟨q, hMem, rfl⟩)
    · exact Or.inl (Or.inl hOld)
    · obtain hOld | hNew := List.mem_or_eq_of_mem_set hMem
      · exact Or.inl (Or.inr ⟨q, hOld, rfl⟩)
      · exact Or.inr (hLive q hNew.symm)
  · intro c hc
    obtain hOld | hNew := List.mem_or_eq_of_mem_set hc
    · exact Or.inl hOld
    · exact Or.inr (hRoot c hNew.symm)

theorem Inv.moveChild (h : s.Inv) (w : Nat) {kids : Nat → List Nat} (hTree : s.fs.TreeInv kids)
    {child : Option Nat} (hChild : ∀ c, child = some c → ∃ a, c ∈ kids a) :
    s.Goes (.next w)
      ((s.visit child).bind fun _ => some { s with walks := s.walks.set w (child.map .child) }) := by
  have hVisit : s.visit child = some () := by
    refine visit_live fun c hc => ?_
    obtain ⟨a, hMem⟩ := hChild c hc
    exact hTree.live_of_mem hMem
  rw [hVisit, Option.bind_some]
  refine h.moveWalk w _ ?_ ?_
  · intro q hq
    obtain ⟨c, hc, rfl⟩ := Option.map_eq_some_iff.mp hq
    obtain ⟨a, hMem⟩ := hChild c hc
    exact hTree.live_of_mem hMem
  · intro c hq
    obtain ⟨d, hd, hEq⟩ := Option.map_eq_some_iff.mp hq
    obtain ⟨a, hMem⟩ := hChild d hd
    cases hEq
    rintro rfl
    exact hTree.rooted.root_free a hMem

theorem Inv.nextEntry (h : s.Inv) {w : Nat} (hAttached : s.Attached (.next w)) :
    s.Goes (.next w) (s.nextEntry w) := by
  obtain ⟨kids, hTree⟩ := h.tree
  have hLive : ∀ p, (s.walks[w]?).join = some p → s.fs.view.live p.addr := fun p hWalk =>
    (h.live_iff (holds_walk hWalk)).mpr (hAttached p hWalk)
  unfold Session.nextEntry
  split
  case h_1 hNone => exact h.stay _
  case h_2 a hWalk =>
    obtain ⟨dir, hInode⟩ := Ramfs.live_iff.mp (hLive _ hWalk)
    have hParent : s.fs.view.parent a = dir.parent := by
      simp only [Ramfs.view, Walk.addr] at hInode ⊢
      simp only [hInode, Option.bind_some]
    have hUp : s.visit dir.parent = some () :=
      visit_live fun c hc => hTree.parent_live h.top (hLive _ hWalk) (hParent.trans hc)
    simp only [Walk.addr] at hInode
    simp only [hInode, hUp, Option.bind_eq_bind, Option.bind_some]
    refine h.moveWalk w _ ?_ ?_
    · rintro q hq
      cases hq
      exact hLive (.dot a) hWalk
    · rintro c hq
      cases hq
  case h_3 a hWalk =>
    obtain ⟨dir, hInode⟩ := Ramfs.live_iff.mp (hLive _ hWalk)
    simp only [Walk.addr] at hInode
    simp only [hInode, Option.bind_eq_bind, Option.bind_some]
    have hHead : s.fs.view.head a = dir.children := by
      simp only [Ramfs.view, hInode, Option.bind_some]
    exact h.moveChild w hTree fun c hc => ⟨a, hTree.head_mem (hHead.trans hc)⟩
  case h_4 c hWalk =>
    obtain ⟨child, hInode⟩ := Ramfs.live_iff.mp (hLive _ hWalk)
    simp only [Walk.addr] at hInode
    simp only [hInode, Option.bind_eq_bind, Option.bind_some]
    have hNext : s.fs.view.next c = child.sibling := by
      simp only [Ramfs.view, hInode, Option.bind_some]
    have hRoot : c ≠ s.fs.root := h.walkers c (mem_of_join hWalk)
    exact h.moveChild w hTree fun d hd => hTree.next_mem (hLive _ hWalk) hRoot (hNext.trans hd)

/-! ### Calls that take a path -/

theorem Inv.made (h : s.Inv) {addr : Nat} (hFresh : addr ∉ s.used) {fs : Ramfs} {ret : Int}
    (hMakes : s.fs.Makes addr (some (fs, ret))) :
    Inv { s with fs, used := addr :: s.used } ∧ (ret = 0 → fs.view.live addr) := by
  obtain ⟨fs', ret', kids', hEq, hTree, hRoot, hLive, hParent⟩ := hMakes
  cases hEq
  obtain ⟨kids, hOld⟩ := h.tree
  have hKeep : ∀ a, s.fs.view.live a → fs.view.live a := fun a ha => (hLive a).mpr (Or.inl ha)
  refine ⟨⟨⟨kids', hTree⟩, ?_, ?_, ?_, ?_, ?_⟩, fun hZero => (hLive addr).mpr (Or.inr ⟨hZero, rfl⟩)⟩
  · have hNe : s.fs.root ≠ addr := by
      rintro rfl
      exact hFresh (h.used _ hOld.rooted.root_live)
    dsimp only
    rw [hRoot, hParent _ hNe]
    exact h.top
  · intro a ha
    obtain hWas | ⟨-, rfl⟩ := (hLive a).mp ha
    · exact List.mem_cons_of_mem _ (h.used a hWas)
    · exact List.mem_cons_self
  · intro a ha
    obtain ⟨hDead, hUsed⟩ := h.gone a ha
    refine ⟨?_, List.mem_cons_of_mem _ hUsed⟩
    intro hNow
    obtain hWas | ⟨-, rfl⟩ := (hLive a).mp hNow
    · exact hDead hWas
    · exact hFresh hUsed
  · intro a ha
    exact (h.held a ha).imp_left (hKeep a)
  · dsimp only
    rw [hRoot]
    exact h.walkers

theorem Inv.vfsMkdir (h : s.Inv) {path : List Char} {mode : UInt32} {addr : Nat} {memory : Memory}
    (hFresh : s.Fresh (.mkdir path mode addr memory)) :
    s.Goes (.mkdir path mode addr memory) (s.vfsMkdir path mode addr memory) := by
  obtain ⟨kids, hTree⟩ := h.tree
  unfold Session.vfsMkdir
  split
  case isTrue hRefused => exact h.stay _
  case isFalse hGiven =>
    have hMakes := hTree.vfsMkdir path mode fun hLive => hFresh (h.used addr hLive)
    obtain ⟨fs, ret, -, hCall, -⟩ := id hMakes
    rw [hCall] at hMakes
    simp only [hCall, Option.bind_eq_bind, Option.bind_some]
    exact ⟨_, rfl, (h.made hFresh hMakes).1, fun _ => Or.inl, fun _ => Or.inl⟩

theorem Inv.vfsOpen (h : s.Inv) {path : List Char} {flags mode : UInt32} {addr : Nat}
    {memory : Memory} (hFresh : s.Fresh (.openFile path flags mode addr memory)) :
    s.Goes (.openFile path flags mode addr memory) (s.vfsOpen path flags mode addr memory) := by
  obtain ⟨kids, hTree⟩ := h.tree
  unfold Session.vfsOpen
  split
  case isTrue hRefused => exact h.stay _
  split
  case isTrue hRoot =>
    refine h.goes _ rfl rfl rfl rfl rfl ?_ fun _ => Or.inl
    intro a ha
    obtain hOld | rfl := holds_addFile (s := s) ha
    · exact Or.inl hOld
    · exact Or.inr hTree.rooted.root_live
  obtain ⟨r, hParent, hr⟩ := hTree.vfsLookupParent path
  simp only [hParent, Option.bind_eq_bind, Option.bind_some]
  cases r with
  | none => exact h.stay _
  | some found =>
    obtain ⟨p, name⟩ := found
    obtain ⟨hp, hName, hTake⟩ := hr p name rfl
    obtain ⟨c, hLookup, hFound, -⟩ := hTree.lookup hp name
    simp only [hLookup, Option.bind_some]
    cases c with
    | some child =>
      dsimp only
      split
      case isTrue hGranted => exact h.openInode _ (hTree.live_of_mem (hFound child rfl).1) flags
      case isFalse hLate => exact h.stay _
    | none =>
      dsimp only
      split
      case isTrue hNoCreate => exact h.stay _
      case isFalse hCreate =>
        have hMakes := hTree.ramfsMake hp hName hTake (fun hLive => hFresh (h.used addr hLive))
          sIfReg mode
        obtain ⟨fs, ret, -, hCall, -⟩ := id hMakes
        rw [hCall] at hMakes
        obtain ⟨hInv, hLive⟩ := h.made hFresh hMakes
        simp only [Ramfs.ramfsCreate, hCall, Option.bind_some]
        split
        case isTrue hOpen =>
          exact hInv.openInode (.openFile path flags mode addr memory) (hLive hOpen.1) flags
        case isFalse hLate => exact ⟨_, rfl, hInv, fun _ => Or.inl, fun _ => Or.inl⟩

theorem Inv.lost (h : s.Inv) {t : Nat} {fs : Ramfs} (ht : s.fs.view.live t)
    (hTree : ∃ kids, fs.TreeInv kids) (hNe : t ≠ s.fs.root) (hRoot : fs.root = s.fs.root)
    (hLive : ∀ x, fs.view.live x ↔ x ≠ t ∧ s.fs.view.live x)
    (hParent : ∀ x, x ≠ t → fs.view.parent x = s.fs.view.parent x) :
    Inv { s with fs, removed := t :: s.removed } := by
  refine ⟨hTree, ?_, ?_, ?_, ?_, ?_⟩
  · dsimp only
    rw [hRoot, hParent _ hNe.symm]
    exact h.top
  · exact fun a ha => h.used a ((hLive a).mp ha).2
  · intro a ha
    obtain rfl | hBefore := List.mem_cons.mp ha
    · exact ⟨fun hNow => ((hLive a).mp hNow).1 rfl, h.used a ht⟩
    · obtain ⟨hDead, hUsed⟩ := h.gone a hBefore
      exact ⟨fun hNow => hDead ((hLive a).mp hNow).2, hUsed⟩
  · intro a ha
    obtain hWas | hBefore := h.held a ha
    · by_cases hSame : a = t
      · exact Or.inr (hSame ▸ List.mem_cons_self)
      · exact Or.inl ((hLive a).mpr ⟨hSame, hWas⟩)
    · exact Or.inr (List.mem_cons_of_mem t hBefore)
  · dsimp only
    rw [hRoot]
    exact h.walkers

theorem Inv.remove (h : s.Inv) (op : SessionOp) {call : List Char → Option (Ramfs × Int)}
    {path : List Char} {memory : Memory} {t : Nat} (ht : s.fs.view.live t)
    (hTarget : s.fs.target path = some (some t)) (hRemoves : s.fs.Removes t (call path))
    (hSpared : ∀ fs, call path = some (fs, 0) → s.SparesHeld op → ¬ s.Holds t) :
    s.Goes op (s.remove call path memory) := by
  unfold Session.remove
  split
  case isTrue hRefused => exact h.stay op
  case isFalse hGranted =>
    obtain ⟨fs, ret, kids, hCall, hTree, hOut⟩ := hRemoves
    simp only [hTarget, hCall, Option.bind_eq_bind, Option.bind_some]
    obtain ⟨hFailed, rfl⟩ | ⟨rfl, hNe, hRoot, hLive, hParent⟩ := hOut
    · rw [if_neg hFailed]
      exact h.stay op
    · refine ⟨_, rfl, h.lost ht ⟨kids, hTree⟩ hNe hRoot hLive hParent, fun _ => Or.inl, ?_⟩
      intro a ha
      obtain rfl | hBefore := List.mem_cons.mp ha
      · exact Or.inr (hSpared fs hCall)
      · exact Or.inl hBefore

theorem Inv.removeMissing (h : s.Inv) (op : SessionOp) {call : List Char → Option (Ramfs × Int)}
    {path : List Char} {memory : Memory} (hTarget : s.fs.target path = some none)
    (hCall : call path = some (s.fs, -eNoEnt)) : s.Goes op (s.remove call path memory) := by
  unfold Session.remove
  split
  case isTrue hRefused => exact h.stay op
  case isFalse hGranted =>
    simp only [hTarget, hCall, Option.bind_eq_bind, Option.bind_some]
    exact h.stay op

theorem Inv.vfsUnlink (h : s.Inv) (path : List Char) (memory : Memory) :
    s.Goes (.unlink path memory) (s.remove s.fs.vfsUnlink path memory) := by
  obtain ⟨kids, hTree⟩ := h.tree
  obtain ⟨hTarget, hCall, -⟩ | ⟨p, name, t, hTarget, ht, hParent, hLookup⟩ :=
    hTree.target_cases path
  · exact h.removeMissing _ hTarget hCall
  · have hLive := hTree.live_of_mem ht
    refine h.remove _ hLive hTarget (hTree.vfsUnlink_removes ht hParent hLookup) ?_
    intro fs hCall hSpares
    obtain ⟨i, hi⟩ := Ramfs.live_iff.mp hLive
    refine hSpares t i hTarget hi ?_
    simp only [Ramfs.vfsUnlink, hParent, hLookup, hi, Option.bind_eq_bind, Option.bind_some] at hCall
    split at hCall
    case isTrue hDir => cases hCall
    case isFalse hReg => exact Bool.eq_false_iff.mpr hReg

theorem Inv.vfsRmdir (h : s.Inv) (path : List Char) (memory : Memory) :
    s.Goes (.rmdir path memory) (s.remove s.fs.vfsRmdir path memory) := by
  obtain ⟨kids, hTree⟩ := h.tree
  obtain ⟨hTarget, -, hCall⟩ | ⟨p, name, t, hTarget, ht, hParent, hLookup⟩ :=
    hTree.target_cases path
  · exact h.removeMissing _ hTarget hCall
  · have hLive := hTree.live_of_mem ht
    refine h.remove _ hLive hTarget (hTree.vfsRmdir_removes ht hParent hLookup) ?_
    intro fs hCall hSpares
    obtain ⟨i, hi⟩ := Ramfs.live_iff.mp hLive
    simp only [Ramfs.vfsRmdir, Ramfs.ramfsRmdir, hParent, hLookup, hi, Option.bind_eq_bind,
      Option.bind_some] at hCall
    split at hCall
    case isTrue hReg => cases hCall
    case isFalse hDir =>
      split at hCall
      case isTrue hFull => cases hCall
      case isFalse hEmpty =>
        exact hSpares t i hTarget hi (by simpa using hDir) (by simpa using hEmpty)

/-! ### Runs -/

theorem Inv.step (h : s.Inv) {op : SessionOp} (hFresh : s.Fresh op) (hAttached : s.Attached op) :
    s.Goes op (s.step op) := by
  cases op with
  | openFile path flags mode addr memory => exact h.vfsOpen hFresh
  | mkdir path mode addr memory => exact h.vfsMkdir hFresh
  | read i count => exact h.readFile hAttached
  | write i buf kmalloc => exact h.writeFile hAttached
  | close i => exact h.closeFile i
  | unlink path memory => exact h.vfsUnlink path memory
  | rmdir path memory => exact h.vfsRmdir path memory
  | readdir i => exact h.startWalk hAttached
  | next w => exact h.nextEntry hAttached

theorem Inv.inodes_removed (h : s.Inv) {a : Nat} (ha : a ∈ s.removed) : s.fs.inodes a = none := by
  cases hInode : s.fs.inodes a with
  | none => rfl
  | some i => exact absurd (Ramfs.live_iff.mpr ⟨i, hInode⟩) (h.gone a ha).1

theorem Inv.step_detached (h : s.Inv) {op : SessionOp} (hDetached : ¬ s.Attached op) :
    s.step op = none := by
  cases op with
  | openFile path flags mode addr memory => exact absurd trivial hDetached
  | mkdir path mode addr memory => exact absurd trivial hDetached
  | close i => exact absurd trivial hDetached
  | unlink path memory => exact absurd trivial hDetached
  | rmdir path memory => exact absurd trivial hDetached
  | read i count =>
    simp only [Attached, Option.mem_def, not_forall, not_not] at hDetached
    obtain ⟨f, hFile, hReg, hGone⟩ := hDetached
    simp [Session.step, Session.readFile, hFile, hReg, h.inodes_removed hGone]
  | write i buf kmalloc =>
    simp only [Attached, Option.mem_def, not_forall, not_not] at hDetached
    obtain ⟨f, hFile, hReg, hGone⟩ := hDetached
    simp [Session.step, Session.writeFile, hFile, hReg, h.inodes_removed hGone]
  | readdir i =>
    simp only [Attached, Option.mem_def, not_forall, not_not] at hDetached
    obtain ⟨f, hFile, hDir, hGone⟩ := hDetached
    simp [Session.step, Session.startWalk, hFile, hDir, h.inodes_removed hGone]
  | next w =>
    simp only [Attached, Option.mem_def, not_forall, not_not] at hDetached
    obtain ⟨p, hWalk, hGone⟩ := hDetached
    have hNone := h.inodes_removed hGone
    cases p <;> simp_all [Session.step, Session.nextEntry, Walk.addr]

theorem Inv.run_iff (h : s.Inv) {ops : List SessionOp} (hFresh : s.FreshAlong ops) :
    (s.run ops).isSome ↔ s.AttachedAlong ops := by
  induction ops generalizing s with
  | nil => exact iff_of_true rfl trivial
  | cons op ops ih =>
    obtain ⟨hOp, hRest⟩ := hFresh
    by_cases hAttached : s.Attached op
    · obtain ⟨s₁, hStep, hInv, -⟩ := h.step hOp hAttached
      have hNext := ih hInv (hRest s₁ hStep)
      simp only [Session.run, hStep, Option.bind_eq_bind, Option.bind_some, hNext, AttachedAlong,
        Option.some.injEq, forall_eq']
      exact ⟨fun hAlong => ⟨hAttached, hAlong⟩, And.right⟩
    · have hStep := h.step_detached hAttached
      simp only [Session.run, hStep, Option.bind_eq_bind, Option.bind_none, AttachedAlong, hAttached,
        false_and, Option.isSome_none, Bool.false_eq_true]

/-- Nothing that is kept was removed. -/
def Clean (s : Session) : Prop := ∀ a, s.Holds a → a ∉ s.removed

theorem Clean.attached (h : s.Clean) (op : SessionOp) : s.Attached op := by
  cases op with
  | read i count => exact fun f hFile _ => h _ (holds_file hFile)
  | write i buf kmalloc => exact fun f hFile _ => h _ (holds_file hFile)
  | readdir i => exact fun f hFile _ => h _ (holds_file hFile)
  | next w => exact fun p hWalk => h _ (holds_walk hWalk)
  | openFile path flags mode addr memory => trivial
  | mkdir path mode addr memory => trivial
  | close i => trivial
  | unlink path memory => trivial
  | rmdir path memory => trivial

theorem Clean.step (h : s.Clean) (hInv : s'.Inv) {op : SessionOp} (hSpares : s.SparesHeld op)
    (hHolds : ∀ a, s'.Holds a → s.Holds a ∨ s'.fs.view.live a)
    (hRemoved : ∀ a ∈ s'.removed, a ∈ s.removed ∨ (s.SparesHeld op → ¬ s.Holds a)) : s'.Clean := by
  intro a ha hGone
  obtain hBefore | hNow := hHolds a ha
  · obtain hOld | hNew := hRemoved a hGone
    · exact h a hBefore hOld
    · exact hNew hSpares hBefore
  · exact (hInv.gone a hGone).1 hNow

theorem Clean.run (h : s.Clean) (hInv : s.Inv) {ops : List SessionOp} (hFresh : s.FreshAlong ops)
    (hSpares : s.SparesHeldAlong ops) : s.AttachedAlong ops := by
  induction ops generalizing s with
  | nil => trivial
  | cons op ops ih =>
    have hAttached := h.attached op
    refine ⟨hAttached, fun s₁ hStep => ?_⟩
    obtain ⟨s₂, hSame, hInv₂, hHolds, hRemoved⟩ := hInv.step hFresh.1 hAttached
    obtain rfl : s₁ = s₂ := Option.some.inj (hStep.symm.trans hSame)
    have hClean := h.step hInv₂ hSpares.1 hHolds hRemoved
    exact ih hClean hInv₂ (hFresh.2 s₁ hStep) (hSpares.2 s₁ hStep)

theorem inv_mounted (root : Nat) : (mounted root).Inv where
  tree := ⟨_, Ramfs.treeInv_ramfsMount root⟩
  top := by simp [mounted, ramfsMount, Ramfs.ramfsAllocInode, Ramfs.view]
  used := by
    intro a ha
    by_contra hOther
    have hNe : a ≠ root := fun hSame => hOther (List.mem_singleton.mpr hSame)
    simp [mounted, ramfsMount, Ramfs.ramfsAllocInode, Ramfs.view, hNe] at ha
  gone := by
    intro a ha
    cases ha
  held := by
    rintro a (⟨f, hf, -⟩ | ⟨p, hp, -⟩)
    · cases hf
    · cases hp
  walkers := by
    intro c hc
    cases hc

theorem clean_mounted (root : Nat) : (mounted root).Clean := by
  intro a _ hGone
  cases hGone

/-- No operation of a run reaches an inode that is gone, exactly when none goes through a file or a
walk whose inode was removed. No run whose removals spare what is kept has such an operation. -/
theorem ramfs_session_safe (root : Nat) (ops : List SessionOp)
    (hFresh : (mounted root).FreshAlong ops) :
    (((mounted root).run ops).isSome ↔ (mounted root).AttachedAlong ops) ∧
      ((mounted root).SparesHeldAlong ops → ((mounted root).run ops).isSome) := by
  have hRun := (inv_mounted root).run_iff hFresh
  refine ⟨hRun, fun hSpares => hRun.mpr ?_⟩
  exact (clean_mounted root).run (inv_mounted root) hFresh hSpares

theorem ramfs_session_safe_closed :
    ((mounted 0).run [.openFile ['/', 'a'] oCreat 0 1 .granted, .close 0,
      .unlink ['/', 'a'] .granted, .read 0 1]).isSome := by
  refine (ramfs_session_safe 0 _ ?_).2 ?_
  · exact ⟨(by decide : 1 ∉ [0]), fun _ _ => ⟨trivial, fun _ _ => ⟨trivial, fun _ _ => ⟨trivial, fun _ _ => trivial⟩⟩⟩⟩
  · refine ⟨trivial, fun s₁ h₁ => ?_⟩
    obtain rfl := Option.some.inj h₁
    refine ⟨trivial, fun s₂ h₂ => ?_⟩
    obtain rfl := Option.some.inj h₂
    refine ⟨?_, fun _ _ => ⟨trivial, fun _ _ => trivial⟩⟩
    rintro a i - - - (⟨f, hf, -⟩ | ⟨p, hp, -⟩)
    · cases List.mem_singleton.mp hf
    · cases hp

/-- A file that is unlinked while it is open is read from; and a walk of the root directory goes on
after its callback has unlinked the child it was called for, as `iso_remove_tree_callback` does. -/
theorem read_after_unlink_follows_freed_inode :
    ((mounted 0).FreshAlong [.openFile ['/', 'a'] oCreat 0 1 .granted,
        .unlink ['/', 'a'] .granted, .read 0 1] ∧
      (mounted 0).run [.openFile ['/', 'a'] oCreat 0 1 .granted,
        .unlink ['/', 'a'] .granted, .read 0 1] = none) ∧
    (mounted 0).FreshAlong [.openFile ['/', 'a'] oCreat 0 1 .granted, .close 0,
        .openFile ['/'] 0 0 2 .granted, .readdir 1, .next 0, .next 0,
        .unlink ['/', 'a'] .granted, .next 0] ∧
      (mounted 0).run [.openFile ['/', 'a'] oCreat 0 1 .granted, .close 0,
        .openFile ['/'] 0 0 2 .granted, .readdir 1, .next 0, .next 0,
        .unlink ['/', 'a'] .granted, .next 0] = none := by
  refine ⟨⟨?_, rfl⟩, ?_, rfl⟩
  · exact ⟨(by decide : 1 ∉ [0]), fun _ _ => ⟨trivial, fun _ _ => ⟨trivial, fun _ _ => trivial⟩⟩⟩
  · refine ⟨(by decide : 1 ∉ [0]), fun s₁ h₁ => ⟨trivial, fun s₂ h₂ => ?_⟩⟩
    obtain rfl := Option.some.inj h₁
    obtain rfl := Option.some.inj h₂
    exact ⟨(by decide : 2 ∉ [1, 0]), fun _ _ => ⟨trivial, fun _ _ => ⟨trivial, fun _ _ =>
      ⟨trivial, fun _ _ => ⟨trivial, fun _ _ => ⟨trivial, fun _ _ => trivial⟩⟩⟩⟩⟩⟩

end Session

end UnixOS.Fs
