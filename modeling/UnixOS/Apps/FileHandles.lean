import UnixOS.Fs.VfsCompat

/-! # File handles of applications

The file calls that `kernel/apps/launcher.c` offers to applications, and the lookup with which
`process_create` finds its program. Both take nodes from the pool of the compatibility layer; neither gives
one back.
-/

namespace UnixOS.Apps

open ByteMemory Fs

/-- `struct { char *name; int type; unsigned int size; }` laid over a `vfs_node_t`: its `size` is at offset
12, inside the name of the node. -/
def getVfsFileSize (node : VfsNode) : Int := toInt32 (load node.name 4 12)

def kapiOpen (s : Ramfs) (p : NodePool) (path : List Char) : Option (NodePool × Option Nat) := do
  match ← vfsLookup s p path with
  | (p, some file) => return (p, some file)
  | (p, none) =>
    match path with
    | '/' :: rest => vfsLookup s p rest
    | _ => return (p, none)

def kapiClose (p : NodePool) (_handle : Nat) : NodePool := p

def kapiRead (s : Ramfs) (p : NodePool) (handle count offset : Nat) : Option (Int × List UInt8) :=
  vfsReadCompat s (p.nodePool handle) (count % 2 ^ 32) (offset % 2 ^ 32)

def kapiFileSize (p : NodePool) (handle : Nat) : Int := getVfsFileSize (p.nodePool handle)

/-- `process_create` up to the bytes that it hands to the ELF loader; after them it does not touch the
pool. -/
def processCreateFile (s : Ramfs) (p : NodePool) (slotFree : Bool) (malloc : Nat → Bool)
    (path : List Char) : Option (NodePool × Option (List UInt8)) :=
  if !slotFree then some (p, none)
  else do
    match ← vfsLookup s p path with
    | (p, none) => return (p, none)
    | (p, some file) =>
      let node := p.nodePool file
      if node.isDir then return (p, none)
      else if node.size = 0 then return (p, none)
      else if !malloc node.size then return (p, none)
      else
        let (bytes, data) ← vfsReadCompat s node node.size 0
        if bytes ≠ toInt32 node.size then return (p, none) else return (p, some data)

inductive FileCall where
  | open (path : List Char)
  | read (handle count offset : Nat)
  | fileSize (handle : Nat)
  | close (handle : Nat)
  | processCreate (slotFree : Bool) (malloc : Nat → Bool) (path : List Char)

structure FileCalls where
  pool : NodePool
  handles : List (Nat × List Char)

def fileCallsInit : FileCalls := ⟨nodePoolInit, []⟩

namespace FileCalls

variable (s : Ramfs) (T : FileCalls)

def step : FileCall → Option FileCalls
  | .open path => do
    match ← kapiOpen s T.pool path with
    | (pool, none) => return { T with pool }
    | (pool, some handle) => return ⟨pool, (handle, path) :: T.handles⟩
  | .read _ _ _ => some T
  | .fileSize _ => some T
  | .close handle => some ⟨kapiClose T.pool handle, T.handles.filter fun o => o.1 ≠ handle⟩
  | .processCreate slotFree malloc path => do
    let (pool, _) ← processCreateFile s T.pool slotFree malloc path
    return { T with pool }

def Lawful : FileCall → Prop
  | .open path => ∀ a i, s.FileAt path a i → T.handles.length < maxVfsNodes →
      ∃ pool handle, kapiOpen s T.pool path = some (pool, some handle)
  | .read handle count offset => ∀ path a i, (handle, path) ∈ T.handles → s.FileAt path a i →
      kapiRead s T.pool handle count offset =
        some ((((i.bytes.drop offset).take count).length : Int), (i.bytes.drop offset).take count)
  | .fileSize handle => ∀ path a i, (handle, path) ∈ T.handles → s.FileAt path a i →
      kapiFileSize T.pool handle = i.size
  | .close _ => True
  | .processCreate slotFree malloc path => ∃ pool data,
      processCreateFile s T.pool slotFree malloc path = some (pool, data) ∧
        pool.inUse.card = T.pool.inUse.card

/-- The calls of the run return, and each of them keeps what an application may expect. -/
def LawfulAlong (s : Ramfs) (T : FileCalls) : List FileCall → Prop
  | [] => True
  | c :: cs => T.Lawful s c ∧ ∃ T', T.step s c = some T' ∧ T'.LawfulAlong s cs

/-- When a call does what it should: a node is still free for an `open`, and its path has no third slash at
its start; a `read` is of the same bytes when its offset and its count are cut to 32 bits; the characters
12 to 15 of the name happen to spell the length of the file; and `process_create` does not find its
program. -/
def Meets : FileCall → Prop
  | .open path => ∀ a i, s.FileAt path a i → T.handles.length < maxVfsNodes →
      T.pool.inUse.card < maxVfsNodes ∧ ¬ ['/', '/', '/'] <+: path
  | .read handle count offset => ∀ path a i, (handle, path) ∈ T.handles → s.FileAt path a i →
      (i.bytes.drop (offset % 2 ^ 32)).take (count % 2 ^ 32) = (i.bytes.drop offset).take count ∧
        min count (i.size - offset) < 2 ^ 31
  | .fileSize handle => ∀ path a i, (handle, path) ∈ T.handles → s.FileAt path a i →
      load (leftInName (T.pool.nodePool handle).copied) 4 12 = i.size ∧ i.size < 2 ^ 31
  | .close _ => True
  | .processCreate slotFree _ path => slotFree = true →
      path = [] ∨ T.pool.inUse.card = maxVfsNodes ∨ s.ramfsLookupPathInfo path = some none

def MeetsAlong (s : Ramfs) (T : FileCalls) : List FileCall → Prop
  | [] => True
  | c :: cs => T.Meets s c ∧ ∀ T', T.step s c = some T' → T'.MeetsAlong s cs

end FileCalls

/-! ### What each call does -/

variable {s : Ramfs} {kids : Nat → List Nat} {p : NodePool} {path : List Char} {a : Nat} {i : RamfsInode}

theorem fileAt_slash {rest : List Char} (h : s.FileAt ('/' :: rest) a i) : s.FileAt rest a i := by
  refine ⟨?_, h.inode, h.file⟩
  rw [← pathComponents_slash rest]
  exact h.resolve

theorem fileAt_ne_nil (h : s.FileTree kids) (hFile : s.FileAt path a i) : path ≠ [] := by
  rintro rfl
  have hInfo := Option.some.inj (Option.some.inj (h.lookup_file hFile (by simp)))
  exact Bool.noConfusion (congrArg PathInfo.outIsDir hInfo)

theorem lookup_none_iff (h : s.FileTree kids) (hFile : s.FileAt path a i) :
    s.ramfsLookupPathInfo path = some none ↔ ['/', '/'] <+: path := by
  constructor
  · intro hNone
    by_contra hSlashes
    rw [h.lookup_file hFile hSlashes] at hNone
    cases hNone
  · exact h.tree.lookup_slashes

inductive Opened (s : Ramfs) (p : NodePool) (path : List Char) (p' : NodePool) : Option Nat → Prop
  | missed (hUse : p'.inUse = p.inUse)
      (hWhy : ∀ a i, s.FileAt path a i → p.inUse.card = maxVfsNodes ∨ ['/', '/', '/'] <+: path) :
      Opened s p path p' none
  | found {n : Nat} (hFree : n ∉ p.inUse) (hUse : p'.inUse = insert n p.inUse)
      (hNode : ∀ a i, s.FileAt path a i → ¬ ['/', '/', '/'] <+: path ∧
        (p'.nodePool n).size = i.size ∧ (p'.nodePool n).internal = some a) :
      Opened s p path p' (some n)

theorem found_file (h : s.FileTree kids) {node : VfsNode} {info : PathInfo}
    (hInfo : s.ramfsLookupPathInfo path = some (some info)) (hSize : node.size = info.outSize)
    (hInternal : node.internal = info.outData) (hFile : s.FileAt path a i) :
    ¬ ['/', '/'] <+: path ∧ node.size = i.size ∧ node.internal = some a := by
  have hSlashes : ¬ ['/', '/'] <+: path := by
    rw [← lookup_none_iff h hFile, hInfo]
    simp
  rw [h.lookup_file hFile hSlashes] at hInfo
  obtain rfl := Option.some.inj (Option.some.inj hInfo)
  exact ⟨hSlashes, hSize, hInternal⟩

theorem kapiOpen_spec (h : s.FileTree kids) (hNamed : p.Named) (path : List Char) :
    ∃ p' r, kapiOpen s p path = some (p', r) ∧ p'.Named ∧
      (∀ j ∈ p.inUse, p'.nodePool j = p.nodePool j) ∧ Opened s p path p' r := by
  obtain ⟨p₁, r, hLookup, hNamed₁, hKept, hFirst⟩ := vfsLookup_spec h.tree hNamed path
  unfold kapiOpen
  rw [hLookup]
  cases hFirst with
  | @found n info hFree hUse hPath hInfo hSize hInternal =>
    refine ⟨p₁, some n, rfl, hNamed₁, hKept, .found hFree hUse ?_⟩
    intro a i hFile
    obtain ⟨hSlashes, hNode⟩ := found_file h hInfo hSize hInternal hFile
    exact ⟨fun hThree => hSlashes (List.IsPrefix.trans ⟨['/'], rfl⟩ hThree), hNode⟩
  | missed hUse hWhy =>
    by_cases hSlash : ∃ rest, path = '/' :: rest
    · obtain ⟨rest, rfl⟩ := hSlash
      obtain ⟨p₂, r, hLookup₂, hNamed₂, hKept₂, hSecond⟩ := vfsLookup_spec h.tree hNamed₁ rest
      have hKeptBoth : ∀ j ∈ p.inUse, p₂.nodePool j = p.nodePool j := by
        intro j hj
        rw [hKept₂ j (hUse ▸ hj), hKept j hj]
      refine ⟨p₂, r, hLookup₂, hNamed₂, hKeptBoth, ?_⟩
      cases hSecond with
      | @found n info hFree₂ hUse₂ hPath₂ hInfo₂ hSize₂ hInternal₂ =>
        rw [hUse] at hFree₂ hUse₂
        refine .found hFree₂ hUse₂ ?_
        intro a i hFile
        obtain ⟨hSlashes, hNode⟩ := found_file h hInfo₂ hSize₂ hInternal₂ (fileAt_slash hFile)
        exact ⟨fun hThree => hSlashes (List.cons_prefix_cons.mp hThree).2, hNode⟩
      | missed hUse₂ hWhy₂ =>
        refine .missed (hUse₂.trans hUse) ?_
        intro a i hFile
        rcases hWhy₂ with hNil | hFull | hNone
        · exact absurd hNil (fileAt_ne_nil h (fileAt_slash hFile))
        · exact .inl (hUse ▸ hFull)
        · have hSlashes := (lookup_none_iff h (fileAt_slash hFile)).mp hNone
          exact .inr (List.cons_prefix_cons.mpr ⟨rfl, hSlashes⟩)
    · refine ⟨p₁, none, ?_, hNamed₁, hKept, .missed hUse ?_⟩
      · cases path with
        | nil => rfl
        | cons c rest =>
          have hc : c ≠ '/' := fun hEq => hSlash ⟨rest, by rw [hEq]⟩
          simp only [Option.bind_eq_bind, Option.bind_some]
          split
          case h_1 hCons => exact absurd (List.cons.inj hCons).1 hc
          case h_2 => rfl
      · intro a i hFile
        rcases hWhy with hNil | hFull | hNone
        · exact absurd hNil (fileAt_ne_nil h hFile)
        · exact .inl hFull
        · obtain ⟨q, hq⟩ := (lookup_none_iff h hFile).mp hNone
          exact absurd ⟨_, hq.symm⟩ hSlash

theorem toInt32_eq_iff (n : Nat) : toInt32 n = n ↔ n < 2 ^ 31 := by
  have hMod := Int.bmod_def (n : Int) (2 ^ 32)
  unfold toInt32
  norm_num at hMod ⊢
  omega

theorem vfsReadCompat_eq (h : s.FileTree kids) (hInode : s.inodes a = some i) {node : VfsNode}
    (hSize : node.size = i.size) (hInternal : node.internal = some a) (count offset : Nat) :
    vfsReadCompat s node count offset =
      some (toInt32 ((i.bytes.drop offset).take count).length, (i.bytes.drop offset).take count) := by
  have hSound := h.sound hInode
  unfold vfsReadCompat
  rw [hInternal, hSize]
  dsimp only
  split
  case isFalse hEmpty =>
    have hNil : i.bytes = [] := List.eq_nil_of_length_eq_zero (by rw [i.length_bytes]; omega)
    have hZero : toInt32 0 = 0 := (toInt32_eq_iff 0).mpr (by norm_num)
    simp [hNil, hZero]
  case isTrue hPos =>
    cases hData : i.data with
    | none =>
      have hFits := hSound.fits
      rw [hSound.null hData] at hFits
      omega
    | some data =>
      have hToRead : (if count < (if offset < i.size then i.size - offset else 0) then count
          else if offset < i.size then i.size - offset else 0) = min count (i.size - offset) := by
        split_ifs <;> omega
      have hBytes : (i.bytes.drop offset).take count =
          (List.range (min count (i.size - offset))).map fun k => data (offset + k) := by
        apply List.ext_getElem
        · simp
        · intro k hLeft hRight
          simp [RamfsInode.bytes, RamfsInode.byte, hData]
      simp [hInode, hData, hToRead, hBytes]

theorem outData_live {info : PathInfo} (hInfo : s.ramfsLookupPathInfo path = some (some info)) :
    ∀ b, info.outData = some b → ∃ j, s.inodes b = some j := by
  intro b hb
  unfold Ramfs.ramfsLookupPathInfo at hInfo
  dsimp only at hInfo
  split at hInfo
  case isTrue =>
    obtain rfl := Option.some.inj (Option.some.inj hInfo)
    cases hb
  case isFalse =>
    obtain ⟨r, hLoop, hInfo⟩ := Option.bind_eq_some_iff.mp hInfo
    cases r with
    | none => cases hInfo
    | some current =>
      obtain ⟨inode, hInode, hInfo⟩ := Option.bind_eq_some_iff.mp hInfo
      obtain rfl := Option.some.inj (Option.some.inj hInfo)
      obtain rfl := Option.some.inj hb
      exact ⟨inode, hInode⟩

theorem vfsReadCompat_returns {node : VfsNode}
    (h : ∀ b, node.internal = some b → ∃ j, s.inodes b = some j) (count offset : Nat) :
    ∃ r, vfsReadCompat s node count offset = some r := by
  unfold vfsReadCompat
  cases hInternal : node.internal with
  | none => exact ⟨_, rfl⟩
  | some b =>
    obtain ⟨j, hj⟩ := h b hInternal
    dsimp only
    split
    · rw [hj]
      cases hData : j.data <;> simp [hData]
    · exact ⟨_, rfl⟩

theorem processCreateFile_spec (h : s.TreeInv kids) (hNamed : p.Named) (slotFree : Bool)
    (malloc : Nat → Bool) (path : List Char) :
    ∃ p' data, processCreateFile s p slotFree malloc path = some (p', data) ∧ p'.Named ∧
      (∀ j ∈ p.inUse, p'.nodePool j = p.nodePool j) ∧
      (slotFree = false ∧ p' = p ∨ slotFree = true ∧ ∃ r, LookedUp s p path p' r) := by
  cases slotFree with
  | false => exact ⟨p, none, rfl, hNamed, fun _ _ => rfl, .inl ⟨rfl, rfl⟩⟩
  | true =>
    obtain ⟨p₁, r, hLookup, hNamed₁, hKept, hLooked⟩ := vfsLookup_spec h hNamed path
    have hReturns : ∃ data, processCreateFile s p true malloc path = some (p₁, data) := by
      unfold processCreateFile
      rw [hLookup]
      cases hLooked with
      | missed hUse hWhy => exact ⟨none, rfl⟩
      | @found n info hFree hUse hPath hInfo hSize hInternal =>
        obtain ⟨⟨ret, bytes⟩, hRead⟩ := vfsReadCompat_returns (hInternal ▸ outData_live hInfo)
          (p₁.nodePool n).size 0
        simp only [Bool.not_true, Bool.false_eq_true, if_false, Option.bind_eq_bind, Option.bind_some,
          hRead]
        split_ifs <;> exact ⟨_, rfl⟩
    obtain ⟨data, hData⟩ := hReturns
    exact ⟨p₁, data, hData, hNamed₁, hKept, .inr ⟨rfl, r, hLooked⟩⟩

/-! ### Runs -/

namespace FileCalls

variable {T T' : FileCalls}

/-- The names are what was copied into them, and every open handle is a node in use for its file. -/
structure Inv (s : Ramfs) (T : FileCalls) : Prop where
  named : T.pool.Named
  held : ∀ {handle path}, (handle, path) ∈ T.handles → handle ∈ T.pool.inUse
  node : ∀ {handle path a i}, (handle, path) ∈ T.handles → s.FileAt path a i →
    (T.pool.nodePool handle).size = i.size ∧ (T.pool.nodePool handle).internal = some a

theorem inv_init (s : Ramfs) : fileCallsInit.Inv s := by
  constructor
  · exact NodePool.named_init
  · intro handle path hMem
    cases hMem
  · intro handle path a i hMem
    cases hMem

theorem Inv.pool (h : T.Inv s) {pool : NodePool} (hNamed : pool.Named) (hUse : T.pool.inUse ⊆ pool.inUse)
    (hKept : ∀ j ∈ T.pool.inUse, pool.nodePool j = T.pool.nodePool j) : Inv s { T with pool } := by
  constructor
  · exact hNamed
  · intro handle path hMem
    exact hUse (h.held hMem)
  · intro handle path a i hMem hFile
    have hNode := h.node hMem hFile
    rwa [← hKept handle (h.held hMem)] at hNode

theorem inv_open (hTree : s.FileTree kids) (h : T.Inv s) (path : List Char) :
    ∃ T', T.step s (.open path) = some T' ∧ T'.Inv s := by
  obtain ⟨pool, r, hOpen, hNamed, hKept, hOpened⟩ := kapiOpen_spec hTree h.named path
  rw [step, hOpen]
  cases hOpened with
  | missed hUse hWhy => exact ⟨_, rfl, h.pool hNamed hUse.ge hKept⟩
  | @found n hFree hUse hNode =>
    have hOld := h.pool hNamed (hUse ▸ Finset.subset_insert n _) hKept
    refine ⟨_, rfl, hNamed, ?_, ?_⟩
    · intro handle other hMem
      rcases List.mem_cons.mp hMem with hEq | hMem
      · obtain ⟨rfl, rfl⟩ := Prod.mk.inj hEq
        exact hUse ▸ Finset.mem_insert_self _ _
      · exact hOld.held hMem
    · intro handle other a i hMem hFile
      rcases List.mem_cons.mp hMem with hEq | hMem
      · obtain ⟨rfl, rfl⟩ := Prod.mk.inj hEq
        exact (hNode a i hFile).2
      · exact hOld.node hMem hFile

theorem inv_step (hTree : s.FileTree kids) (h : T.Inv s) (c : FileCall) :
    ∃ T', T.step s c = some T' ∧ T'.Inv s := by
  cases c with
  | «open» path => exact inv_open hTree h path
  | read handle count offset => exact ⟨T, rfl, h⟩
  | fileSize handle => exact ⟨T, rfl, h⟩
  | close handle =>
    have hSub : ∀ {o}, o ∈ T.handles.filter (fun o => o.1 ≠ handle) → o ∈ T.handles :=
      List.mem_of_mem_filter
    exact ⟨_, rfl, h.named, fun hMem => h.held (hSub hMem), fun hMem => h.node (hSub hMem)⟩
  | processCreate slotFree malloc path =>
    obtain ⟨pool, data, hCreate, hNamed, hKept, hCases⟩ :=
      processCreateFile_spec hTree.tree h.named slotFree malloc path
    have hUse : T.pool.inUse ⊆ pool.inUse := by
      rcases hCases with ⟨-, rfl⟩ | ⟨-, r, hLooked⟩
      · exact subset_rfl
      · cases hLooked with
        | missed hUse hWhy => exact hUse.ge
        | @found n info hFree hUse => exact hUse ▸ Finset.subset_insert n _
    refine ⟨{ T with pool }, ?_, h.pool hNamed hUse hKept⟩
    rw [step, hCreate]
    rfl

theorem card_lt_of_insert {p p' : NodePool} {n : Nat} (hFree : n ∉ p.inUse)
    (hUse : p'.inUse = insert n p.inUse) : p.inUse.card < maxVfsNodes := by
  have hLe := p'.card_inUse_le
  rwa [hUse, Finset.card_insert_of_notMem hFree] at hLe

theorem open_lawful_iff (hTree : s.FileTree kids) (h : T.Inv s) (path : List Char) :
    T.Lawful s (.open path) ↔ T.Meets s (.open path) := by
  refine forall_congr' fun a => forall_congr' fun i => forall_congr' fun hFile => forall_congr' fun _ => ?_
  obtain ⟨pool, r, hOpen, -, -, hOpened⟩ := kapiOpen_spec hTree h.named path
  rw [hOpen]
  cases hOpened with
  | missed hUse hWhy =>
    have hFails := hWhy a i hFile
    constructor
    · rintro ⟨pool', handle, hSome⟩
      cases hSome
    · rintro ⟨hRoom, hSlashes⟩
      rcases hFails with hFull | hThree
      · omega
      · exact absurd hThree hSlashes
  | @found n hFree hUse hNode =>
    constructor
    · intro _
      exact ⟨card_lt_of_insert hFree hUse, (hNode a i hFile).1⟩
    · intro _
      exact ⟨pool, n, rfl⟩

theorem read_lawful_iff (hTree : s.FileTree kids) (h : T.Inv s) (handle count offset : Nat) :
    T.Lawful s (.read handle count offset) ↔ T.Meets s (.read handle count offset) := by
  refine forall_congr' fun path => forall_congr' fun a => forall_congr' fun i =>
    forall_congr' fun hMem => forall_congr' fun hFile => ?_
  obtain ⟨hSize, hInternal⟩ := h.node hMem hFile
  have hLength : ((i.bytes.drop offset).take count).length = min count (i.size - offset) := by
    simp
  rw [kapiRead, vfsReadCompat_eq hTree hFile.inode hSize hInternal, Option.some_inj, Prod.mk.injEq,
    ← hLength]
  constructor
  · rintro ⟨hRet, hBytes⟩
    rw [hBytes] at hRet
    exact ⟨hBytes, (toInt32_eq_iff _).mp hRet⟩
  · rintro ⟨hBytes, hShort⟩
    rw [hBytes]
    exact ⟨(toInt32_eq_iff _).mpr hShort, rfl⟩

theorem fileSize_lawful_iff (h : T.Inv s) (handle : Nat) :
    T.Lawful s (.fileSize handle) ↔ T.Meets s (.fileSize handle) := by
  refine forall_congr' fun path => forall_congr' fun a => forall_congr' fun i =>
    forall_congr' fun hMem => forall_congr' fun hFile => ?_
  have hName : load (T.pool.nodePool handle).name 4 12 =
      load (leftInName (T.pool.nodePool handle).copied) 4 12 :=
    load_congr fun x _ _ => h.named handle x
  rw [kapiFileSize, getVfsFileSize, hName]
  have hLt := load_lt (leftInName (T.pool.nodePool handle).copied) 4 12
  generalize load (leftInName (T.pool.nodePool handle).copied) 4 12 = word at hLt ⊢
  constructor
  · intro hEq
    have hMod := Int.bmod_def (word : Int) (2 ^ 32)
    unfold toInt32 at hEq
    norm_num at hMod hEq hLt
    omega
  · rintro ⟨hWord, hShort⟩
    rw [hWord]
    exact (toInt32_eq_iff i.size).mpr hShort

theorem processCreate_lawful_iff (hTree : s.FileTree kids) (h : T.Inv s) (slotFree : Bool)
    (malloc : Nat → Bool) (path : List Char) :
    T.Lawful s (.processCreate slotFree malloc path) ↔ T.Meets s (.processCreate slotFree malloc path) := by
  obtain ⟨pool, data, hCreate, -, -, hCases⟩ :=
    processCreateFile_spec hTree.tree h.named slotFree malloc path
  have hLawful : T.Lawful s (.processCreate slotFree malloc path) ↔
      pool.inUse.card = T.pool.inUse.card := by
    simp [Lawful, hCreate]
  rw [hLawful]
  rcases hCases with ⟨rfl, rfl⟩ | ⟨rfl, r, hLooked⟩
  · simp [Meets]
  · cases hLooked with
    | missed hUse hWhy => simp [Meets, hUse, hWhy]
    | @found n info hFree hUse hPath hInfo =>
      have hRoom := card_lt_of_insert hFree hUse
      simp [Meets, hUse, hPath, hInfo, Finset.card_insert_of_notMem hFree, hRoom.ne]

theorem lawful_iff_meets (hTree : s.FileTree kids) (h : T.Inv s) (c : FileCall) :
    T.Lawful s c ↔ T.Meets s c := by
  cases c with
  | «open» path => exact open_lawful_iff hTree h path
  | read handle count offset => exact read_lawful_iff hTree h handle count offset
  | fileSize handle => exact fileSize_lawful_iff h handle
  | close handle => exact Iff.rfl
  | processCreate slotFree malloc path => exact processCreate_lawful_iff hTree h slotFree malloc path

theorem lawfulAlong_iff (hTree : s.FileTree kids) {cs : List FileCall} (h : T.Inv s) :
    T.LawfulAlong s cs ↔ T.MeetsAlong s cs := by
  induction cs generalizing T with
  | nil => exact Iff.rfl
  | cons c cs ih =>
    obtain ⟨T', hStep, hInv⟩ := inv_step hTree h c
    have hNow := lawful_iff_meets hTree h c
    constructor
    · rintro ⟨hLawful, T'', hStep', hRest⟩
      obtain rfl := Option.some.inj (hStep.symm.trans hStep')
      refine ⟨hNow.mp hLawful, ?_⟩
      intro T₁ hStep₁
      obtain rfl := Option.some.inj (hStep.symm.trans hStep₁)
      exact (ih hInv).mp hRest
    · rintro ⟨hMeets, hRest⟩
      exact ⟨hNow.mpr hMeets, T', hStep, (ih hInv).mpr (hRest T' hStep)⟩

end FileCalls

/-- In every tree of files, the calls of a run all do what an application expects exactly when each of them
meets its condition. -/
theorem file_handles_iff (s : Ramfs) (kids : Nat → List Nat) (hTree : s.FileTree kids)
    (calls : List FileCall) :
    fileCallsInit.LawfulAlong s calls ↔ fileCallsInit.MeetsAlong s calls :=
  FileCalls.lawfulAlong_iff hTree (FileCalls.inv_init s)

def oneFile (name : List Char) : Ramfs where
  inodes a :=
    if a = 0 then some ⟨1, sIfDir ||| 0o755, 0, none, 0, none, some 1, none, []⟩
    else if a = 1 then some ⟨2, sIfReg ||| 0o644, 1, some fun _ => 7, 4096, some 0, none, none, name⟩
    else none
  root := 0
  nextIno := 3
  inodeCount := 2

def oneFileKids (a : Nat) : List Nat := if a = 0 then [1] else []

theorem mem_oneFileKids {a b : Nat} : b ∈ oneFileKids a ↔ a = 0 ∧ b = 1 := by
  unfold oneFileKids
  split <;> simp_all

theorem live_oneFile {name : List Char} {a : Nat} : (oneFile name).view.live a ↔ a = 0 ∨ a = 1 := by
  by_cases h0 : a = 0
  · simp [Ramfs.view, oneFile, h0]
  · by_cases h1 : a = 1 <;> simp [Ramfs.view, oneFile, h0, h1]

theorem treeInv_oneFile {name : List Char} (h : name ≠ []) : (oneFile name).TreeInv oneFileKids where
  rooted := {
    root_live := live_oneFile.mpr (.inl rfl)
    edge_live := by
      intro a b hb
      obtain ⟨rfl, rfl⟩ := mem_oneFileKids.mp hb
      exact ⟨live_oneFile.mpr (.inl rfl), live_oneFile.mpr (.inr rfl)⟩
    nodup := by
      intro a
      unfold oneFileKids
      split <;> simp
    parent_unique := by
      intro a a' b hb hb'
      rw [(mem_oneFileKids.mp hb).1, (mem_oneFileKids.mp hb').1]
    root_free := by
      intro a hRoot
      exact absurd (mem_oneFileKids.mp hRoot).2 zero_ne_one
    reach := by
      intro b hb
      rcases live_oneFile.mp hb with rfl | rfl
      · exact .refl
      · exact .single (mem_oneFileKids.mpr ⟨rfl, rfl⟩) }
  links := by
    intro a
    by_cases h0 : a = 0
    · simp [oneFileKids, SinglyLinked.Chain, Ramfs.view, oneFile, h0]
    · by_cases h1 : a = 1 <;> simp [oneFileKids, SinglyLinked.Chain, Ramfs.view, oneFile, h0, h1]
  dirs := by
    intro a hKids
    have h0 : a = 0 := by
      by_contra h0
      simp [oneFileKids, h0] at hKids
    exact ⟨sIfDir ||| 0o755, by simp [Ramfs.view, oneFile, h0], by decide⟩
  parent := by
    intro a b hb
    obtain ⟨rfl, rfl⟩ := mem_oneFileKids.mp hb
    rfl
  named := by
    intro a b hb
    obtain ⟨rfl, rfl⟩ := mem_oneFileKids.mp hb
    simpa [Ramfs.view, oneFile] using h
  distinct := by
    intro a b c hb hc _
    rw [(mem_oneFileKids.mp hb).2, (mem_oneFileKids.mp hc).2]
  count := by
    refine ⟨{0, 1}, ?_, rfl⟩
    intro a
    simp [live_oneFile]

theorem fileTree_oneFile {name : List Char} (h : name ≠ []) (hFits : name.length ≤ nameMax) :
    (oneFile name).FileTree oneFileKids where
  tree := treeInv_oneFile h
  root := ⟨sIfDir ||| 0o755, rfl, by decide⟩
  names := by
    intro a i hi
    simp only [oneFile] at hi
    split_ifs at hi
    · obtain rfl := Option.some.inj hi
      exact Nat.zero_le _
    · obtain rfl := Option.some.inj hi
      exact hFits
  sound := by
    intro a i hi
    simp only [oneFile] at hi
    split_ifs at hi
    · obtain rfl := Option.some.inj hi
      exact ⟨by norm_num, le_rfl, fun _ => rfl⟩
    · obtain rfl := Option.some.inj hi
      exact ⟨by norm_num, by norm_num, nofun⟩

theorem fileAt_oneFile {name path : List Char} {a : Nat} {i : RamfsInode}
    (h : (oneFile name).FileAt path a i) : i.size = 1 ∧ i.bytes = [7] := by
  have hInode := h.inode
  simp only [oneFile] at hInode
  split_ifs at hInode
  · obtain rfl := Option.some.inj hInode
    exact absurd h.file (by decide)
  · obtain rfl := Option.some.inj hInode
    exact ⟨rfl, rfl⟩

/-- Eleven letters and a character of code 1: behind a slash, the characters 12 to 15 spell the length 1. -/
def spelledName : List Char := List.replicate 11 'a' ++ ['\x01']

theorem file_handles_iff_spelled :
    fileCallsInit.LawfulAlong (oneFile spelledName) [.open ('/' :: spelledName), .fileSize 0, .read 0 9 0,
      .close 0, .open ('/' :: spelledName), .processCreate true (fun _ => true) ['b']] := by
  refine (file_handles_iff (oneFile spelledName) oneFileKids
    (fileTree_oneFile (by decide) (by decide)) _).mpr ?_
  refine ⟨fun _ _ _ _ => ⟨by decide, by decide⟩, fun T₁ h₁ => ?_⟩
  obtain rfl := Option.some.inj h₁
  refine ⟨?_, fun T₂ h₂ => ?_⟩
  · intro path a i _ hFile
    rw [(fileAt_oneFile hFile).1]
    exact ⟨by decide, by norm_num⟩
  obtain rfl := Option.some.inj h₂
  refine ⟨?_, fun T₃ h₃ => ?_⟩
  · intro path a i _ hFile
    rw [(fileAt_oneFile hFile).1, (fileAt_oneFile hFile).2]
    exact ⟨rfl, by norm_num⟩
  obtain rfl := Option.some.inj h₃
  refine ⟨trivial, fun T₄ h₄ => ?_⟩
  obtain rfl := Option.some.inj h₄
  refine ⟨fun _ _ _ _ => ⟨by decide, by decide⟩, fun T₅ h₅ => ?_⟩
  obtain rfl := Option.some.inj h₅
  exact ⟨fun _ => .inr (.inr rfl), fun _ _ => trivial⟩

theorem FileCalls.LawfulAlong.last {T T' : FileCalls} {cs : List FileCall} {c : FileCall}
    (h : T.LawfulAlong s (cs ++ [c])) (hRun : cs.foldlM (fun T c => FileCalls.step s T c) T = some T') :
    T'.Lawful s c := by
  induction cs generalizing T with
  | nil =>
    obtain rfl := Option.some.inj hRun
    exact h.1
  | cons d cs ih =>
    obtain ⟨-, T₁, hStep, hRest⟩ := h
    rw [List.foldlM_cons, hStep] at hRun
    exact ih hRest hRun

/-- With one file `/a` of one byte: its `file_size` is 0; after 32 rounds of `open` and `close` no `open`
succeeds; and `process_create("/a")` keeps a node. -/
theorem file_handles_leak :
    (oneFile ['a']).FileTree oneFileKids ∧
      ¬ fileCallsInit.LawfulAlong (oneFile ['a']) [.open ['/', 'a'], .fileSize 0] ∧
      ¬ fileCallsInit.LawfulAlong (oneFile ['a'])
        ((List.range 32).flatMap (fun k => [.open ['/', 'a'], .close k]) ++ [.open ['/', 'a']]) ∧
      ¬ fileCallsInit.LawfulAlong (oneFile ['a']) [.processCreate true (fun _ => true) ['/', 'a']] := by
  have hFile : (oneFile ['a']).FileAt ['/', 'a'] 1
      ⟨2, sIfReg ||| 0o644, 1, some fun _ => 7, 4096, some 0, none, none, ['a']⟩ := ⟨by decide, rfl, by decide⟩
  refine ⟨fileTree_oneFile (by decide) (by decide), ?_, ?_, ?_⟩
  · rintro ⟨-, T, hStep, hSize, -⟩
    obtain rfl := Option.some.inj hStep
    exact absurd (hSize _ _ _ (.head _) hFile) (by decide)
  · intro hAll
    have hRun : (((List.range 32).flatMap (fun k => [FileCall.open ['/', 'a'], .close k])).foldlM
        (fun T c => FileCalls.step (oneFile ['a']) T c) fileCallsInit).map (fun T =>
          (T.handles, (kapiOpen (oneFile ['a']) T.pool ['/', 'a']).map (·.2))) = some ([], some none) := by
      decide +kernel
    obtain ⟨T, hRun, hEnd⟩ := Option.map_eq_some_iff.mp hRun
    obtain ⟨hClosed, hOpen⟩ := Prod.mk.inj hEnd
    obtain ⟨pool, handle, hSome⟩ := hAll.last hRun 1 _ hFile (by rw [hClosed]; decide)
    rw [hSome] at hOpen
    cases hOpen
  · rintro ⟨⟨pool, data, hCreate, hCard⟩, -⟩
    have hKept : (processCreateFile (oneFile ['a']) fileCallsInit.pool true (fun _ => true) ['/', 'a']).map
        (fun r => r.1.inUse.card) = some (fileCallsInit.pool.inUse.card + 1) := by
      decide +kernel
    rw [hCreate, Option.map_some, hCard] at hKept
    exact absurd (Option.some.inj hKept) (Nat.succ_ne_self _).symm

end UnixOS.Apps
