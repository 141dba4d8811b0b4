import UnixOS.Fs.CreateFailures

/-! # Files made by the kernel itself

`ramfs_create_file` and `ramfs_create_file_bytes` of `kernel/fs/ramfs.c`. They split a path at its last
slash; the part before it goes through a buffer of 256 bytes, and the part behind it is the name. An inode is
granted; what `kmalloc` answers to a request for the content is an argument.
-/

namespace UnixOS.Fs

open ByteMemory

def splitLastSlash : List Char → Option (List Char × List Char)
  | [] => none
  | c :: p =>
    match splitLastSlash p with
    | some (before, name) => some (c :: before, name)
    | none => if c = '/' then some ([], p) else none

/-- `ramfs_split_path`; `none` is `-EINVAL`. -/
def ramfsSplitPath (path : List Char) (parentSize nameSize : Nat) : Option (List Char × List Char) :=
  let start := skipSlashes path
  if start = [] then none
  else
    match splitLastSlash start with
    | none => some ([], start.take (nameSize - 1))
    | some (parent, name) =>
      let name := name.take (nameSize - 1)
      if name = [] then none else some (parent.take (parentSize - 1), name)

def RamfsInode.fill (data : Mem) (content : List UInt8) (i : RamfsInode) : RamfsInode :=
  { i with data := some (putBytes data 0 content), size := content.length, dataCapacity := content.length }

namespace Ramfs

section Calls

variable (s : Ramfs)

/-- The directory and the name, or `NULL`. -/
def ramfsGetParentDir (path : List Char) : Option (Option (Nat × List Char)) :=
  match ramfsSplitPath path 256 (nameMax + 1) with
  | none => some none
  | some (parentPath, filename) =>
    if parentPath = [] then some (some (s.root, filename))
    else do
      match ← s.ramfsLookupInodePath parentPath with
      | none => return none
      | some dir =>
        let i ← s.inodes dir
        if sIsDir i.mode then return some (dir, filename) else return none

def ramfsFinish (parent addr : Nat) (content : Option (List UInt8)) (kmalloc : Nat → Option Mem) :
    Option (Ramfs × Int) :=
  match content.map fun bytes => (bytes, kmalloc bytes.length) with
  | some (_, none) => some (s.ramfsFreeInode addr, -eNoMem)
  | some (bytes, some data) => do
    match ← (s.modify addr (RamfsInode.fill data bytes)).ramfsAddChild parent addr with
    | (s, 0) => return (s, 0)
    | (s, _) => return (s.ramfsFreeInode addr, -eNotDir)
  | none => do
    match ← s.ramfsAddChild parent addr with
    | (s, 0) => return (s, 0)
    | (s, _) => return (s.ramfsFreeInode addr, -eNotDir)

/-- `content` is a string, or `NULL`. -/
def ramfsCreateFile (path : List Char) (mode : UInt32) (content : Option (List UInt8)) (addr : Nat)
    (kmalloc : Nat → Option Mem) : Option (Ramfs × Int) := do
  match ← s.ramfsGetParentDir path with
  | none => return (s, -eNoEnt)
  | some (parent, filename) =>
    match ← s.ramfsLookupChild parent filename with
    | some _ => return (s, -eExist)
    | none => (s.ramfsAllocInode addr (sIfReg ||| mode) filename).ramfsFinish parent addr content kmalloc

/-- Here the inode comes before the look at the name. -/
def ramfsCreateFileBytes (path : List Char) (mode : UInt32) (data : Option (List UInt8)) (addr : Nat)
    (kmalloc : Nat → Option Mem) : Option (Ramfs × Int) := do
  match ← s.ramfsGetParentDir path with
  | none => return (s, -eNoEnt)
  | some (parent, filename) =>
    let s := s.ramfsAllocInode addr (sIfReg ||| mode) filename
    match ← s.ramfsLookupChild parent filename with
    | some _ => return (s.ramfsFreeInode addr, -eExist)
    | none => s.ramfsFinish parent addr (data.filter fun bytes => 0 < bytes.length) kmalloc

end Calls

end Ramfs

/-! ### The split of a path -/

variable {p q before name path : List Char}

theorem splitLastSlash_eq_none : splitLastSlash p = none ↔ '/' ∉ p := by
  induction p with
  | nil => simp [splitLastSlash]
  | cons c p ih =>
    rw [splitLastSlash, List.mem_cons, not_or, ← ih]
    cases splitLastSlash p with
    | some r => simp
    | none => by_cases hc : c = '/' <;> simp [hc, eq_comm]

theorem splitLastSlash_some (h : splitLastSlash p = some (before, name)) :
    p = before ++ '/' :: name ∧ '/' ∉ name := by
  induction p generalizing before with
  | nil => cases h
  | cons c p ih =>
    rw [splitLastSlash] at h
    cases hSplit : splitLastSlash p with
    | some r =>
      obtain ⟨b, n⟩ := r
      rw [hSplit] at h
      obtain ⟨rfl, rfl⟩ := Prod.mk.inj (Option.some.inj h)
      obtain ⟨hEq, hName⟩ := ih hSplit
      exact ⟨by rw [hEq, List.cons_append], hName⟩
    | none =>
      rw [hSplit] at h
      dsimp only at h
      split at h
      case isTrue hc =>
        obtain ⟨rfl, rfl⟩ := Prod.mk.inj (Option.some.inj h)
        exact ⟨by rw [hc, List.nil_append], splitLastSlash_eq_none.mp hSplit⟩
      case isFalse => cases h

theorem ramfsSplitPath_cases (path : List Char) :
    (pathComponents path = [] ∧ ramfsSplitPath path 256 (nameMax + 1) = none) ∨
    ∃ P n, pathComponents path = P ++ [n] ∧ n ≠ [] ∧ (ramfsSplitPath path 256 (nameMax + 1) = none ∨
      ∃ T, Relative T ∧ pathComponents T = P ∧ (T = [] ↔ P = []) ∧
        ramfsSplitPath path 256 (nameMax + 1) = some (T.take 255, n.take nameMax)) := by
  have hRel := relative_skipSlashes path
  have hSame := pathComponents_skipSlashes path
  unfold ramfsSplitPath
  generalize skipSlashes path = start at hRel hSame
  dsimp only
  by_cases hNil : start = []
  · subst hNil
    exact .inl ⟨hSame.symm, rfl⟩
  rw [if_neg hNil]
  cases hSplit : splitLastSlash start with
  | none =>
    have hComp : IsComponent start := ⟨hNil, fun x hx hSlash => splitLastSlash_eq_none.mp hSplit (hSlash ▸ hx)⟩
    refine .inr ⟨[], start, ?_, hNil, .inr ⟨[], by simp [Relative], rfl, by simp, rfl⟩⟩
    rw [← hSame, pathComponents_component hComp, List.nil_append]
  | some r =>
    obtain ⟨T, n⟩ := r
    obtain ⟨hEq, hName⟩ := splitLastSlash_some hSplit
    have hT : T ≠ [] := by
      rintro rfl
      exact hRel (by simp [hEq])
    have hRelT : Relative T := by
      obtain ⟨c, T, rfl⟩ := List.exists_cons_of_ne_nil hT
      exact fun hHead => hRel (by simpa [hEq] using hHead)
    have hP : pathComponents T ≠ [] := fun hNone => hT ((pathComponents_eq_nil hRelT).mp hNone)
    rw [hEq, pathComponents_append_slash] at hSame
    by_cases hn : n = []
    · subst hn
      rw [pathComponents_nil, List.append_nil] at hSame
      obtain ⟨P, m, hPm⟩ := (List.eq_nil_or_concat' (pathComponents T)).resolve_left hP
      have hm : m ∈ pathComponents T := by simp [hPm]
      refine .inr ⟨P, m, by rw [← hSame, hPm], ?_, .inl rfl⟩
      simpa using (List.mem_filter.mp hm).2
    · have hComp : IsComponent n := ⟨hn, fun x hx hSlash => hName (hSlash ▸ hx)⟩
      have hCut : n.take nameMax ≠ [] := by
        rw [ne_eq, List.take_eq_nil_iff]
        simp [hn, nameMax]
      rw [pathComponents_component hComp] at hSame
      exact .inr ⟨_, n, hSame.symm, hn, .inr ⟨T, hRelT, rfl, by simp [hT, hP], by simp [hCut]⟩⟩

theorem length_le_of_mem_pathComponents {c : List Char} (h : c ∈ pathComponents p) : c.length ≤ p.length := by
  induction hn : p.length using Nat.strong_induction_on generalizing p with
  | _ n ih =>
    subst hn
    rw [← pathComponents_skipSlashes] at h
    have hRel := relative_skipSlashes p
    have hLe : (skipSlashes p).length ≤ p.length := (List.dropWhile_suffix _).length_le
    generalize skipSlashes p = q at h hRel hLe
    by_cases hq : q = []
    · subst hq
      cases h
    · have hLess := length_rest_lt hq hRel
      have hWhole := congrArg List.length (firstName_append_afterName q)
      rw [List.length_append] at hWhole
      rw [pathComponents_unfold hq hRel] at h
      rcases List.mem_cons.mp h with rfl | h
      · omega
      · exact (ih _ (by omega) h rfl).trans (by omega)

namespace Ramfs

variable {s s' : Ramfs} {kids : Nat → List Nat} {a : Nat} {i : RamfsInode} {n T : List Char}
  {P : List (List Char)}

theorem FileTree.lookup_text (h : s.FileTree kids) (hRel : Relative T) (hFits : T.length ≤ nameMax) :
    s.ramfsLookupInodePath T = some (s.resolve s.root (pathComponents T)) := by
  rw [h.tree.ramfsLookupInodePath, skipSlashes_of_relative hRel, ramfsTokens_eq le_rfl hRel]
  exact fun c hc => (length_le_of_mem_pathComponents hc).trans hFits

theorem relative_take (hRel : Relative T) (k : Nat) : Relative (T.take k) := by
  cases T with
  | nil => simpa using hRel
  | cons c T =>
    cases k with
    | zero => simp [Relative]
    | succ k => simpa [Relative] using hRel

theorem FileTree.ramfsGetParentDir (h : s.FileTree kids) {path : List Char} (hRel : Relative T)
    (hSplit : ramfsSplitPath path 256 (nameMax + 1) = some (T.take 255, n)) :
    (s.objAt (pathComponents (T.take 255)) ≠ some .dir ∧ s.ramfsGetParentDir path = some none) ∨
    ∃ p, s.objAt (pathComponents (T.take 255)) = some .dir ∧
      s.resolve s.root (pathComponents (T.take 255)) = some p ∧
      s.ramfsGetParentDir path = some (some (p, n)) := by
  have hRelCut := relative_take hRel 255
  unfold Ramfs.ramfsGetParentDir
  rw [hSplit]
  generalize hCut : T.take 255 = Q at hRelCut
  have hFits : Q.length ≤ nameMax := by
    rw [← hCut, nameMax]
    simp
  dsimp only
  split
  case isTrue hNil =>
    subst hNil
    obtain ⟨i, hi, hDir⟩ := h.at_root
    exact .inr ⟨s.root, by rw [pathComponents_nil, hi.objAt, hDir], rfl, rfl⟩
  case isFalse =>
    rw [h.lookup_text hRelCut hFits]
    cases hResolve : s.resolve s.root (pathComponents Q) with
    | none => exact .inl ⟨by rw [h.tree.objAt_eq_none.mpr hResolve]; simp, rfl⟩
    | some p =>
      obtain ⟨i, hi⟩ := h.tree.at_of_resolve hResolve
      rw [hi.objAt, ne_eq, Option.some_inj, obj_eq_dir]
      cases hDir : sIsDir i.mode with
      | true => exact .inr ⟨p, rfl, rfl, by simp [hi.2, hDir]⟩
      | false => exact .inl ⟨by simp, by simp [hi.2, hDir]⟩

/-! ### The new file -/

theorem bytes_fill (data : Mem) (content : List UInt8) (i : RamfsInode) :
    (RamfsInode.fill data content i).bytes = content := by
  refine List.ext_getElem (by simp [RamfsInode.fill]) fun k hk hk' => ?_
  have hByte := fill_inside (m := data) (a := 0) (f := fun i => content.getD i 0) hk'
  rw [Nat.zero_add] at hByte
  simpa [RamfsInode.bytes, RamfsInode.byte, RamfsInode.fill, putBytes, hk'] using hByte

theorem modify_modify (a : Nat) (f g : RamfsInode → RamfsInode) :
    (s.modify a f).modify a g = s.modify a (g ∘ f) := by
  simp [modify, Function.comp_def]

theorem modify_comm {b : Nat} (hab : a ≠ b) (f g : RamfsInode → RamfsInode) :
    (s.modify a f).modify b g = (s.modify b g).modify a f := by
  simp only [modify, Function.update_of_ne hab, Function.update_of_ne hab.symm]
  rw [Function.update_comm hab]

theorem ramfsAddChild_fill {p : Nat} (hNe : p ≠ a) (data : Mem) (content : List UInt8) :
    (s.modify a (RamfsInode.fill data content)).ramfsAddChild p a =
      (s.ramfsAddChild p a).map fun r => (r.1.modify a (RamfsInode.fill data content), r.2) := by
  have hInode : (s.modify a (RamfsInode.fill data content)).inodes p = s.inodes p := by
    simp [modify, hNe]
  unfold ramfsAddChild
  rw [hInode]
  cases s.inodes p with
  | none => rfl
  | some d =>
    dsimp only
    have hParent : (s.modify a (RamfsInode.fill data content)).setParent a (some p) =
        (s.setParent a (some p)).modify a (RamfsInode.fill data content) := by
      rw [setParent, setParent, modify_modify, modify_modify]
      rfl
    have hSibling : ((s.setParent a (some p)).modify a (RamfsInode.fill data content)).setSibling a d.children =
        ((s.setParent a (some p)).setSibling a d.children).modify a (RamfsInode.fill data content) := by
      rw [setSibling, setSibling, modify_modify, modify_modify]
      rfl
    split
    · rw [hParent, hSibling, setChildren, modify_comm hNe.symm]
      rfl
    · rfl

theorem findChild_mono {s t : Ramfs} (hKeep : ∀ c i, s.inodes c = some i → t.inodes c = some i)
    {name : List Char} {fuel fuel' : Nat} (hFuel : fuel ≤ fuel') {head : Option Nat} {r : Option Nat}
    (h : s.findChild name fuel head = some r) : t.findChild name fuel' head = some r := by
  induction fuel generalizing fuel' head with
  | zero => cases h
  | succ fuel ih =>
    obtain ⟨fuel', rfl⟩ := Nat.exists_eq_succ_of_ne_zero (Nat.ne_of_gt (Nat.lt_of_lt_of_le fuel.succ_pos hFuel))
    cases head with
    | none => exact h
    | some c =>
      rw [findChild] at h ⊢
      cases hc : s.inodes c with
      | none =>
        rw [hc] at h
        cases h
      | some i =>
        rw [hc] at h
        rw [hKeep c i hc]
        dsimp only at h ⊢
        split
        case isTrue hHere => rwa [if_pos hHere] at h
        case isFalse hNext =>
          rw [if_neg hNext] at h
          exact ih (Nat.le_of_succ_le_succ hFuel) h

theorem ramfsLookupChild_alloc {p : Nat} {r : Option Nat} (ha : s.inodes a = none)
    (h : s.ramfsLookupChild p n = some r) (mode : UInt32) (name : List Char) :
    (s.ramfsAllocInode a mode name).ramfsLookupChild p n = some r := by
  have hKeep : ∀ c i, s.inodes c = some i → (s.ramfsAllocInode a mode name).inodes c = some i := by
    intro c i hc
    have hNe : c ≠ a := by
      rintro rfl
      rw [ha] at hc
      cases hc
    simp [ramfsAllocInode, hNe, hc]
  unfold ramfsLookupChild at h ⊢
  cases hp : s.inodes p with
  | none =>
    rw [hp] at h
    cases h
  | some d =>
    rw [hp] at h
    rw [hKeep p d hp]
    dsimp only at h ⊢
    split
    case isTrue hDir =>
      rw [if_pos hDir] at h
      exact findChild_mono hKeep (Nat.le_succ _) h
    case isFalse hFile => rwa [if_neg hFile] at h

theorem ramfsAddChild_of_make {p : Nat} {type mode : UInt32} (hName : n ≠ [])
    (hMissing : s.ramfsLookupChild p n = some none) (h : s.ramfsMake type p n mode a = some (s', 0)) :
    (s.ramfsAllocInode a (type ||| mode) n).ramfsAddChild p a = some (s', 0) := by
  simp only [ramfsMake, hName, if_false, hMissing, Option.bind_eq_bind, Option.bind_some] at h
  obtain ⟨⟨t, ret⟩, hAdd, h⟩ := Option.bind_eq_some_iff.mp h
  split at h
  case h_1 t' hEq =>
    obtain ⟨rfl, rfl⟩ := Prod.mk.inj hEq
    obtain ⟨rfl, -⟩ := Prod.mk.inj (Option.some.inj h)
    exact hAdd
  case h_2 => cases h

structure Stored (s s' : Ramfs) (names : List (List Char)) (mode : UInt32) (content : List UInt8) : Prop where
  shows : s.Shows s' (Function.update s.objAt names (some (.file content))) ∅
  found : ∃ a i, s'.At names a i ∧ i.mode = sIfReg ||| mode ∧ i.bytes = content

theorem not_sIsDir_sIfReg (mode : UInt32) : sIsDir (sIfReg ||| mode) = false := by
  have hBit : (sIfReg ||| mode) &&& sIfMt ≠ sIfDir := by
    intro hEq
    have hBits := congrArg (fun m : UInt32 => m.toBitVec.getLsbD 15) hEq
    simp [sIfReg, sIfMt, sIfDir] at hBits
  simpa [sIsDir] using hBit

theorem FileTree.ramfsFinish (h : s.FileTree kids) {p : Nat} (hP : s.resolve s.root P = some p)
    (hFree : s.inodes a = none) (hName : n ≠ []) (hFits : n.length ≤ nameMax) (hDir : s.objAt P = some .dir)
    (hMissing : s.objAt (P ++ [n]) = none) (mode : UInt32) {content : Option (List UInt8)}
    {kmalloc : Nat → Option Mem} (hSize : (content.getD []).length < 2 ^ 63)
    (hGrant : ∀ bytes, content = some bytes → kmalloc bytes.length ≠ none) :
    ∃ s', (s.ramfsAllocInode a (sIfReg ||| mode) n).ramfsFinish p a content kmalloc = some (s', 0) ∧
      s.Stored s' (P ++ [n]) mode (content.getD []) := by
  have ha : ¬ s.view.live a := by simp [view, hFree]
  have hNew := (h.tree.objAt_child hP).mp hMissing
  obtain ⟨-, -, s₁, i, hMake, hShows, hAt, hMode, hEmpty⟩ | ⟨hNot, -⟩ := h.make ha hP hName hFits sIfReg mode
  case inr => exact absurd ⟨hDir, hMissing⟩ hNot
  have hAdd := ramfsAddChild_of_make hName hNew hMake
  have hFile : sIsDir i.mode = false := by rw [hMode, not_sIsDir_sIfReg]
  cases content with
  | none =>
    have hBytes : i.bytes = [] := by
      rw [RamfsInode.bytes, hEmpty]
      rfl
    rw [obj_eq_file.mpr ⟨hFile, hBytes⟩] at hShows
    exact ⟨s₁, by simp [Ramfs.ramfsFinish, hAdd], hShows, a, i, hAt, hMode, hBytes⟩
  | some bytes =>
    obtain ⟨data, hData⟩ := Option.ne_none_iff_exists'.mp (hGrant bytes rfl)
    have hNe : p ≠ a := by
      rintro rfl
      exact ha (h.tree.resolve_live h.tree.rooted.root_live hP)
    obtain ⟨kids', h'⟩ := hShows.good
    have hSound : (RamfsInode.fill data bytes i).Sound := ⟨hSize, le_rfl, fun hNull => by cases hNull⟩
    obtain ⟨hFill, hFilled⟩ := h'.modify_file hAt hFile
      (j := RamfsInode.fill data bytes i) ⟨rfl, rfl, rfl, rfl, rfl⟩ hSound
    have hModify : s₁.modify a (RamfsInode.fill data bytes) = s₁.modify a fun _ => RamfsInode.fill data bytes i := by
      simp [modify, hAt.2]
    rw [bytes_fill, hShows.objAt, Function.update_idem] at hFill
    refine ⟨s₁.modify a fun _ => RamfsInode.fill data bytes i, ?_, ⟨hFill.good, hFill.objAt, ?_⟩, a, _, hFilled,
      hMode, bytes_fill data bytes i⟩
    · simp only [Ramfs.ramfsFinish, Option.map_some, hData, ramfsAddChild_fill hNe, hAdd, Option.bind_eq_bind,
        Option.bind_some, hModify]
      rfl
    · intro names _ b j hj
      obtain ⟨k, hk, hSame⟩ := hShows.spares names (by simp) b j hj
      have hOther : names ∉ ({P ++ [n]} : Set (List (List Char))) := by
        rintro rfl
        rw [hj.objAt] at hMissing
        cases hMissing
      obtain ⟨l, hl, hSame'⟩ := hFill.spares names hOther b k hk
      exact ⟨l, hl, hSame.trans hSame'⟩

/-! ### The calls -/

def NewIn (s : Ramfs) (P : List (List Char)) (n : List Char) : Prop :=
  s.objAt P = some .dir ∧ s.objAt (P ++ [n]) = none

def goesBy (path : List Char) : Option (List (List Char) × List Char) :=
  (ramfsSplitPath path 256 (nameMax + 1)).map fun r => (pathComponents r.1, r.2)

theorem sameTree_free (hFree : s.inodes a = none) (mode : UInt32) (name : List Char) :
    s.SameTree ((s.ramfsAllocInode a mode name).ramfsFreeInode a) := by
  refine ⟨?_, rfl, rfl⟩
  simp [ramfsFreeInode, ramfsAllocInode, ← hFree]

theorem FileTree.finish_cases (h : s.FileTree kids) {p : Nat} (hP : s.resolve s.root P = some p)
    (hFree : s.inodes a = none) (hName : n ≠ []) (hFits : n.length ≤ nameMax) (hDir : s.objAt P = some .dir)
    (mode : UInt32) {content : Option (List UInt8)} {kmalloc : Nat → Option Mem}
    (hSize : (content.getD []).length < 2 ^ 63) (hZero : kmalloc 0 = none)
    (hGrant : ∀ bytes, content = some bytes → bytes ≠ [] → kmalloc bytes.length ≠ none) :
    (¬ s.NewIn P n ∧ ∃ c, s.ramfsLookupChild p n = some (some c)) ∨
    s.NewIn P n ∧ s.ramfsLookupChild p n = some none ∧
      ((content = some [] ∧ (s.ramfsAllocInode a (sIfReg ||| mode) n).ramfsFinish p a content kmalloc =
        some ((s.ramfsAllocInode a (sIfReg ||| mode) n).ramfsFreeInode a, -eNoMem)) ∨
      content ≠ some [] ∧ ∃ s', (s.ramfsAllocInode a (sIfReg ||| mode) n).ramfsFinish p a content kmalloc =
        some (s', 0) ∧ s.Stored s' (P ++ [n]) mode (content.getD [])) := by
  obtain ⟨r, hLookup, -⟩ := h.tree.lookup (h.tree.resolve_live h.tree.rooted.root_live hP) n
  have hThere := h.tree.objAt_child (n := n) hP
  cases r with
  | some c =>
    refine .inl ⟨fun hNew => ?_, c, hLookup⟩
    rw [hThere.mp hNew.2] at hLookup
    cases hLookup
  | none =>
    refine .inr ⟨⟨hDir, hThere.mpr hLookup⟩, hLookup, ?_⟩
    by_cases hEmpty : content = some []
    · subst hEmpty
      exact .inl ⟨rfl, by simp [Ramfs.ramfsFinish, hZero]⟩
    · refine .inr ⟨hEmpty, h.ramfsFinish hP hFree hName hFits hDir (hThere.mpr hLookup) mode hSize ?_⟩
      rintro bytes rfl
      exact hGrant bytes rfl fun hNil => hEmpty (by rw [hNil])

structure Outcome (s : Ramfs) (path : List Char) (mode : UInt32) (content : Option (List UInt8))
    (r : Option (Ramfs × Int)) : Prop where
  made : ∀ Q m, goesBy path = some (Q, m) → s.NewIn Q m → content ≠ some [] →
    ∃ s', r = some (s', 0) ∧ s.Stored s' (Q ++ [m]) mode (content.getD [])
  failed : ¬ (∃ Q m, goesBy path = some (Q, m) ∧ s.NewIn Q m ∧ content ≠ some []) →
    ∃ s' ret, r = some (s', ret) ∧ ret ≠ 0 ∧ s.SameTree s'

theorem FileTree.goesBy_cases (h : s.FileTree kids) (path : List Char) :
    ((∀ Q m, goesBy path = some (Q, m) → ¬ s.NewIn Q m) ∧ s.ramfsGetParentDir path = some none) ∨
    ∃ Q m p, goesBy path = some (Q, m) ∧ m ≠ [] ∧ m.length ≤ nameMax ∧ s.objAt Q = some .dir ∧
      s.resolve s.root Q = some p ∧ s.ramfsGetParentDir path = some (some (p, m)) := by
  have hNowhere : ramfsSplitPath path 256 (nameMax + 1) = none →
      (∀ Q m, goesBy path = some (Q, m) → ¬ s.NewIn Q m) ∧ s.ramfsGetParentDir path = some none := by
    intro hSplit
    simp [goesBy, Ramfs.ramfsGetParentDir, hSplit]
  rcases ramfsSplitPath_cases path with ⟨-, hSplit⟩ | ⟨P, n, -, hn, hSplit | ⟨T, hRel, -, -, hSplit⟩⟩
  · exact .inl (hNowhere hSplit)
  · exact .inl (hNowhere hSplit)
  · have hGoes : goesBy path = some (pathComponents (T.take 255), n.take nameMax) := by
      rw [goesBy, hSplit]
      rfl
    rcases h.ramfsGetParentDir hRel hSplit with ⟨hNot, hParent⟩ | ⟨p, hDir, hP, hParent⟩
    · refine .inl ⟨fun Q m hEq hNew => hNot ?_, hParent⟩
      obtain ⟨rfl, rfl⟩ := Prod.mk.inj (Option.some.inj (hGoes.symm.trans hEq))
      exact hNew.1
    · have hCut : n.take nameMax ≠ [] := by
        rw [ne_eq, List.take_eq_nil_iff]
        simp [hn, nameMax]
      exact .inr ⟨_, _, p, hGoes, hCut, by simp, hDir, hP, hParent⟩

theorem outcome_nowhere {path : List Char} (hNot : ∀ Q m, goesBy path = some (Q, m) → ¬ s.NewIn Q m)
    (mode : UInt32) (content : Option (List UInt8)) : s.Outcome path mode content (some (s, -eNoEnt)) where
  made Q m hEq hNew := absurd hNew (hNot Q m hEq)
  failed _ := ⟨s, -eNoEnt, rfl, by decide, .refl s⟩

theorem outcome_taken {path : List Char} {Q : List (List Char)} {m : List Char} {ret : Int}
    (hEq : goesBy path = some (Q, m)) (hNot : ¬ s.NewIn Q m) (hRet : ret ≠ 0) (hSame : s.SameTree s')
    (mode : UInt32) (content : Option (List UInt8)) : s.Outcome path mode content (some (s', ret)) where
  made Q' m' hEq' hNew := by
    obtain ⟨rfl, rfl⟩ := Prod.mk.inj (Option.some.inj (hEq.symm.trans hEq'))
    exact absurd hNew hNot
  failed _ := ⟨s', ret, rfl, hRet, hSame⟩

section Memory

variable {content : Option (List UInt8)} {kmalloc : Nat → Option Mem} (hZero : kmalloc 0 = none)
  (hGrant : ∀ bytes, content = some bytes → bytes ≠ [] → kmalloc bytes.length ≠ none)
  (hSize : (content.getD []).length < 2 ^ 63)
include hZero hGrant hSize

theorem FileTree.finish_outcome (h : s.FileTree kids) {p : Nat} {Q : List (List Char)} {m path : List Char}
    (hEq : goesBy path = some (Q, m)) (hm : m ≠ []) (hFits : m.length ≤ nameMax) (hDir : s.objAt Q = some .dir)
    (hP : s.resolve s.root Q = some p) (hFree : s.inodes a = none) (mode : UInt32) :
    (¬ s.NewIn Q m ∧ ∃ c, s.ramfsLookupChild p m = some (some c)) ∨
    s.ramfsLookupChild p m = some none ∧ s.Outcome path mode content
      ((s.ramfsAllocInode a (sIfReg ||| mode) m).ramfsFinish p a content kmalloc) := by
  rcases h.finish_cases hP hFree hm hFits hDir mode hSize hZero hGrant with
    hTaken | ⟨hNew, hLookup, ⟨rfl, hFinish⟩ | ⟨hNe, s', hFinish, hStored⟩⟩
  · exact .inl hTaken
  · refine .inr ⟨hLookup, fun Q' m' _ _ hNe => absurd rfl hNe, fun _ => ?_⟩
    exact ⟨_, _, hFinish, by decide, sameTree_free hFree _ _⟩
  · refine .inr ⟨hLookup, fun Q' m' hEq' _ _ => ?_, fun hNot => absurd ⟨Q, m, hEq, hNew, hNe⟩ hNot⟩
    obtain ⟨rfl, rfl⟩ := Prod.mk.inj (Option.some.inj (hEq.symm.trans hEq'))
    exact ⟨s', hFinish, hStored⟩

theorem FileTree.ramfsCreateFile (h : s.FileTree kids) (hFree : s.inodes a = none) (path : List Char)
    (mode : UInt32) :
    s.Outcome path mode content (s.ramfsCreateFile path mode content a kmalloc) := by
  unfold Ramfs.ramfsCreateFile
  rcases h.goesBy_cases path with ⟨hNot, hParent⟩ | ⟨Q, m, p, hEq, hm, hFits, hDir, hP, hParent⟩
  · rw [hParent]
    exact outcome_nowhere hNot mode content
  · rw [hParent]
    rcases h.finish_outcome hZero hGrant hSize hEq hm hFits hDir hP hFree mode with
      ⟨hTaken, c, hLookup⟩ | ⟨hLookup, hOutcome⟩
    · simp only [Option.bind_eq_bind, Option.bind_some, hLookup]
      exact outcome_taken hEq hTaken (by decide) (.refl s) mode content
    · simp only [Option.bind_eq_bind, Option.bind_some, hLookup]
      exact hOutcome

theorem FileTree.ramfsCreateFileBytes (h : s.FileTree kids) (hFree : s.inodes a = none) (path : List Char)
    (mode : UInt32) :
    s.Outcome path mode (content.filter fun bytes => 0 < bytes.length)
      (s.ramfsCreateFileBytes path mode content a kmalloc) := by
  have hSize' : ((content.filter fun bytes => 0 < bytes.length).getD []).length < 2 ^ 63 := by
    cases content with
    | none => exact hSize
    | some bytes => cases bytes <;> simp_all [Option.filter]
  have hGrant' : ∀ bytes, (content.filter fun bytes => 0 < bytes.length) = some bytes → bytes ≠ [] →
      kmalloc bytes.length ≠ none :=
    fun bytes hEq => hGrant bytes (Option.filter_eq_some_iff.mp hEq).1
  unfold Ramfs.ramfsCreateFileBytes
  rcases h.goesBy_cases path with ⟨hNot, hParent⟩ | ⟨Q, m, p, hEq, hm, hFits, hDir, hP, hParent⟩
  · rw [hParent]
    exact outcome_nowhere hNot mode _
  · rw [hParent]
    rcases h.finish_outcome hZero hGrant' hSize' hEq hm hFits hDir hP hFree mode with
      ⟨hTaken, c, hLookup⟩ | ⟨hLookup, hOutcome⟩
    · simp only [Option.bind_eq_bind, Option.bind_some, ramfsLookupChild_alloc hFree hLookup]
      exact outcome_taken hEq hTaken (by decide) (sameTree_free hFree _ _) mode _
    · simp only [Option.bind_eq_bind, Option.bind_some, ramfsLookupChild_alloc hFree hLookup]
      exact hOutcome

end Memory

/-! ### What the calls promise -/

structure FileMade (s s' : Ramfs) (path : List Char) (content : List UInt8) : Prop where
  shows : s.Shows s' (Function.update s.objAt (pathComponents path) (some (.file content))) ∅
  found : ∃ a i, s'.ramfsLookupInodePath path = some (some a) ∧ s'.inodes a = some i ∧
    sIsReg i.mode = true ∧ i.bytes = content

/-- In an existing directory a call makes the file unless its name is taken; without the directory it fails
and leaves the tree alone. -/
structure Promised (s : Ramfs) (path : List Char) (content : List UInt8) (r : Option (Ramfs × Int)) : Prop where
  there : ∀ P n, pathComponents path = P ++ [n] → s.objAt P = some .dir → n.length ≤ nameMax →
    ∃ s' ret, r = some (s', ret) ∧ (ret = 0 ↔ s.objAt (P ++ [n]) = none) ∧
      (ret = 0 → s.FileMade s' path content)
  missing : ∀ P n, pathComponents path = P ++ [n] → s.objAt P ≠ some .dir →
    ∃ s' ret, r = some (s', ret) ∧ ret ≠ 0 ∧ s.SameTree s'

/-- A new name is the one that the call goes by, in its own directory, and neither content nor mode stands in
the way. Where there is no new name, the call does not come to one either. -/
def Suits (s : Ramfs) (path : List Char) (mode : UInt32) (stores : Prop) : Prop :=
  ∀ P n, pathComponents path = P ++ [n] →
    (n.length ≤ nameMax → s.NewIn P n →
      goesBy path = some (P, n) ∧ stores ∧ sIsReg (sIfReg ||| mode) = true) ∧
    ((n.length ≤ nameMax → ¬ s.NewIn P n) →
      nameMax < n.length ∧ s.objAt P = some .dir ∨
        ¬ ∃ Q m, goesBy path = some (Q, m) ∧ s.NewIn Q m ∧ stores)

theorem FileTree.names_fit (h : s.FileTree kids) {names : List (List Char)} (hSome : s.objAt names ≠ none) :
    ∀ c ∈ names, c.length ≤ nameMax := by
  induction names using List.reverseRecOn with
  | nil => simp
  | append_singleton P n ih =>
    intro c hc
    rcases List.mem_append.mp hc with hc | hc
    · exact ih (by rw [h.objAt_parent hSome]; simp) c hc
    · obtain rfl := List.mem_singleton.mp hc
      obtain ⟨b, hb⟩ := Option.ne_none_iff_exists'.mp (mt h.tree.objAt_eq_none.mpr hSome)
      obtain ⟨-, -, -, hName⟩ := (h.tree.resolve_concat h.tree.rooted.root_live).mp hb
      obtain ⟨i, hi⟩ := h.tree.at_of_resolve hb
      obtain rfl : i.name = c := by simpa [view, hi.2] using hName
      exact h.names hi.2

theorem FileTree.lookup_path (h : s.FileTree kids) {path : List Char}
    (hFits : ∀ c ∈ pathComponents path, c.length ≤ nameMax) :
    s.ramfsLookupInodePath path = some (s.resolve s.root (pathComponents path)) := by
  have hSame := pathComponents_skipSlashes path
  rw [h.tree.ramfsLookupInodePath, ramfsTokens_eq le_rfl (relative_skipSlashes path), hSame]
  rwa [hSame]

theorem FileTree.fileMade_iff (h : s.FileTree kids) {path : List Char} {Q : List (List Char)} {m : List Char}
    {mode : UInt32} {content : List UInt8} (hEq : pathComponents path = P ++ [n]) (hFits : n.length ≤ nameMax)
    (hNew : s.NewIn P n) (hStored : s.Stored s' (Q ++ [m]) mode content) :
    s.FileMade s' path content ↔ Q ++ [m] = P ++ [n] ∧ sIsReg (sIfReg ||| mode) = true := by
  obtain ⟨kids', h'⟩ := hStored.shows.good
  have hNames : ∀ c ∈ pathComponents path, c.length ≤ nameMax := by
    intro c hc
    rw [hEq] at hc
    rcases List.mem_append.mp hc with hc | hc
    · exact h.names_fit (by rw [hNew.1]; simp) c hc
    · exact List.mem_singleton.mp hc ▸ hFits
  obtain ⟨a, i, hAt, hMode, hBytes⟩ := hStored.found
  have hLookup := h'.lookup_path hNames
  rw [hEq] at hLookup
  constructor
  · intro hMade
    have hSame : Q ++ [m] = P ++ [n] := by
      by_contra hNe
      have hHere := congrFun (hMade.shows.objAt.symm.trans hStored.shows.objAt) (P ++ [n])
      rw [hEq, Function.update_self, Function.update_of_ne (Ne.symm hNe), hNew.2] at hHere
      cases hHere
    obtain ⟨b, j, hFound, hj, hReg, -⟩ := hMade.found
    rw [hSame] at hAt
    rw [hLookup, hAt.1] at hFound
    obtain rfl : a = b := Option.some.inj (Option.some.inj hFound)
    obtain rfl : i = j := Option.some.inj (hAt.2.symm.trans hj)
    exact ⟨hSame, hMode ▸ hReg⟩
  · rintro ⟨hSame, hReg⟩
    refine ⟨?_, a, i, ?_, hAt.2, hMode ▸ hReg, hBytes⟩
    · rw [hEq, ← hSame]
      exact hStored.shows
    · rw [hLookup, ← hSame, hAt.1]

theorem FileTree.promised_iff (h : s.FileTree kids) {path : List Char} {mode : UInt32}
    {content : Option (List UInt8)} {r : Option (Ramfs × Int)} (hOutcome : s.Outcome path mode content r) :
    s.Promised path (content.getD []) r ↔ s.Suits path mode (content ≠ some []) := by
  by_cases hMakes : ∃ Q m, goesBy path = some (Q, m) ∧ s.NewIn Q m ∧ content ≠ some []
  · obtain ⟨Q, m, hGoes, hNewQ, hContent⟩ := hMakes
    obtain ⟨s', rfl, hStored⟩ := hOutcome.made Q m hGoes hNewQ hContent
    constructor
    · rintro ⟨hThere, hMissing⟩ P n hEq
      constructor
      · intro hFits hNew
        obtain ⟨t, ret, hCall, hIff, hMade⟩ := hThere P n hEq hNew.1 hFits
        obtain ⟨rfl, rfl⟩ := Prod.mk.inj (Option.some.inj hCall)
        obtain ⟨hSame, hReg⟩ := (h.fileMade_iff hEq hFits hNew hStored).mp (hMade rfl)
        obtain ⟨rfl, rfl⟩ := List.append_inj' hSame rfl |>.imp id List.singleton_inj.mp
        exact ⟨hGoes, hContent, hReg⟩
      · intro hOld
        refine .inl ?_
        by_cases hDir : s.objAt P = some .dir
        · refine ⟨Nat.lt_of_not_le fun hFits => ?_, hDir⟩
          obtain ⟨t, ret, hCall, hIff, -⟩ := hThere P n hEq hDir hFits
          obtain ⟨rfl, rfl⟩ := Prod.mk.inj (Option.some.inj hCall)
          exact hOld hFits ⟨hDir, hIff.mp rfl⟩
        · obtain ⟨t, ret, hCall, hRet, -⟩ := hMissing P n hEq hDir
          obtain ⟨rfl, rfl⟩ := Prod.mk.inj (Option.some.inj hCall)
          exact absurd rfl hRet
    · intro hSuits
      constructor
      · intro P n hEq hDir hFits
        obtain ⟨hNewCase, hOldCase⟩ := hSuits P n hEq
        by_cases hNone : s.objAt (P ++ [n]) = none
        · obtain ⟨hSame, -, hReg⟩ := hNewCase hFits ⟨hDir, hNone⟩
          obtain ⟨rfl, rfl⟩ := Prod.mk.inj (Option.some.inj (hGoes.symm.trans hSame))
          refine ⟨s', 0, rfl, by simp [hNone], fun _ => ?_⟩
          exact (h.fileMade_iff hEq hFits ⟨hDir, hNone⟩ hStored).mpr ⟨rfl, hReg⟩
        · rcases hOldCase fun _ hNew => hNone hNew.2 with ⟨hLong, -⟩ | hNot
          · exact absurd hFits (Nat.not_le_of_lt hLong)
          · exact absurd ⟨Q, m, hGoes, hNewQ, hContent⟩ hNot
      · intro P n hEq hNoDir
        rcases (hSuits P n hEq).2 fun _ hNew => hNoDir hNew.1 with ⟨-, hDir⟩ | hNot
        · exact absurd hDir hNoDir
        · exact absurd ⟨Q, m, hGoes, hNewQ, hContent⟩ hNot
  · obtain ⟨s', ret, rfl, hRet, hSame⟩ := hOutcome.failed hMakes
    constructor
    · rintro ⟨hThere, -⟩ P n hEq
      refine ⟨fun hFits hNew => ?_, fun _ => .inr hMakes⟩
      obtain ⟨t, ret', hCall, hIff, -⟩ := hThere P n hEq hNew.1 hFits
      obtain ⟨rfl, rfl⟩ := Prod.mk.inj (Option.some.inj hCall)
      exact absurd (hIff.mpr hNew.2) hRet
    · intro hSuits
      refine ⟨fun P n hEq hDir hFits => ?_, fun P n _ _ => ⟨s', ret, rfl, hRet, hSame⟩⟩
      refine ⟨s', ret, rfl, ⟨fun hZero => absurd hZero hRet, fun hNone => ?_⟩, fun hZero => absurd hZero hRet⟩
      obtain ⟨hGoes, hContent, -⟩ := (hSuits P n hEq).1 hFits ⟨hDir, hNone⟩
      exact absurd ⟨P, n, hGoes, ⟨hDir, hNone⟩, hContent⟩ hMakes

/-- Both calls keep their promise where they suit the path; for an empty string `ramfs_create_file` asks for no
byte, and gets none. -/
theorem created_file_stored_iff (h : s.Good) (hFree : s.inodes a = none) (path : List Char) (mode : UInt32)
    (content : Option (List UInt8)) (hSize : (content.getD []).length < 2 ^ 63)
    (kmalloc : Nat → Option Mem) (hZero : kmalloc 0 = none)
    (hGrant : ∀ bytes, content = some bytes → bytes ≠ [] → kmalloc bytes.length ≠ none) :
    (s.Promised path (content.getD []) (s.ramfsCreateFile path mode content a kmalloc) ↔
      s.Suits path mode (content ≠ some [])) ∧
    (s.Promised path (content.getD []) (s.ramfsCreateFileBytes path mode content a kmalloc) ↔
      s.Suits path mode True) := by
  obtain ⟨kids, h⟩ := h
  refine ⟨h.promised_iff (h.ramfsCreateFile hZero hGrant hSize hFree path mode), ?_⟩
  have hBytes := h.promised_iff (h.ramfsCreateFileBytes hZero hGrant hSize hFree path mode)
  have hKept : (content.filter fun bytes => 0 < bytes.length).getD [] = content.getD [] := by
    cases content with
    | none => rfl
    | some bytes => cases bytes <;> simp [Option.filter]
  have hSome : (content.filter fun bytes => 0 < bytes.length) ≠ some [] := by
    intro hEmpty
    have hPos := (Option.filter_eq_some_iff.mp hEmpty).2
    simp at hPos
  rwa [hKept, eq_true hSome] at hBytes

/-- A `kmalloc` that grants every request for something. -/
def grantSome (k : Nat) : Option Mem := if k = 0 then none else some fun _ => 0

theorem created_file_stored_mounted :
    ((ramfsMount 0).Promised ['/', 'a'] [7]
        ((ramfsMount 0).ramfsCreateFile ['/', 'a'] 0o644 (some [7]) 1 grantSome) ↔
      (ramfsMount 0).Suits ['/', 'a'] 0o644 (some [7] ≠ some ([] : List UInt8))) ∧
    ((ramfsMount 0).Promised ['/', 'a'] [7]
        ((ramfsMount 0).ramfsCreateFileBytes ['/', 'a'] 0o644 (some [7]) 1 grantSome) ↔
      (ramfsMount 0).Suits ['/', 'a'] 0o644 True) :=
  created_file_stored_iff ⟨_, fileTree_ramfsMount 0⟩ rfl ['/', 'a'] 0o644 (some [7]) (by decide)
    grantSome rfl fun bytes _ hNe => by simp [grantSome, hNe]

theorem empty_file_refused :
    (ramfsMount 0).Good ∧ (ramfsMount 0).NewIn [] ['a'] ∧
      (∃ s', (ramfsMount 0).ramfsCreateFile ['/', 'a'] 0o644 (some []) 1 grantSome = some (s', -eNoMem)) ∧
      ¬ (ramfsMount 0).Promised ['/', 'a'] []
        ((ramfsMount 0).ramfsCreateFile ['/', 'a'] 0o644 (some []) 1 grantSome) := by
  have hNew : (ramfsMount 0).NewIn [] ['a'] := ⟨rfl, rfl⟩
  refine ⟨⟨_, fileTree_ramfsMount 0⟩, hNew, ⟨_, rfl⟩, fun hPromised => ?_⟩
  obtain ⟨s', ret, hCall, hIff, -⟩ := hPromised.there [] ['a'] rfl hNew.1 (by decide)
  obtain ⟨-, rfl⟩ := Prod.mk.inj (Option.some.inj hCall)
  exact absurd (hIff.mpr hNew.2) (by decide)

end Ramfs

end UnixOS.Fs
