import UnixOS.Media.ZipPaths
import UnixOS.Media.ZipReaders

/-! # The walk that packs a tree

The walk opens each directory by its path, reads its entries and goes into those that are directories. It
passes over the names `.` and `..`, whatever they name, and comes back with an error if it meets an empty
file. Otherwise it has packed the files that no such name leads to.
-/

namespace UnixOS.Media

open Fs ByteMemory Ramfs SinglyLinked SiblingLists

variable (supply : Supply) {s : Ramfs} {kids : Nat → List Nat} {a b k : Nat} {i c : RamfsInode}
  {R : List (List Char)} {path n : List Char}

/-! ### Reading a directory -/

theorem siblings_eq {xs : List Nat} {h : Option Nat} {fuel : Nat} (hChain : Chain s.view.next h xs)
    (hLive : ∀ x ∈ xs, s.view.live x) (hFuel : xs.length < fuel) :
    ∃ L, siblings s fuel h = some L ∧ ∀ c, c ∈ L ↔ ∃ x ∈ xs, s.inodes x = some c := by
  induction xs generalizing h fuel with
  | nil =>
    obtain rfl : h = none := hChain
    cases fuel with
    | zero => simp at hFuel
    | succ fuel => exact ⟨[], rfl, by simp⟩
  | cons x xs ih =>
    obtain ⟨rfl, hRest⟩ := hChain
    obtain ⟨i, hi⟩ := live_iff.mp (hLive x (by simp))
    have hNext : s.view.next x = i.sibling := by simp [view, hi]
    rw [hNext] at hRest
    cases fuel with
    | zero => simp at hFuel
    | succ fuel =>
      obtain ⟨L, hL, hAll⟩ := ih hRest (fun y hy => hLive y (by simp [hy])) (by simpa using hFuel)
      refine ⟨i :: L, by simp [siblings, hi, hL], fun c => ?_⟩
      rw [List.mem_cons, hAll, List.exists_mem_cons_iff, hi, Option.some_inj, eq_comm]

theorem readdir_spec (h : s.FileTree kids) (hAt : s.At R b i) (hDir : sIsDir i.mode = true) :
    ∃ L : List RamfsInode, ramfsReaddir s b = some ((['.'], sIfDir >>> 12) :: (['.', '.'], sIfDir >>> 12) ::
        L.map fun c : RamfsInode => (c.name, c.mode >>> 12)) ∧
      (∀ c ∈ L, ∃ k, s.At (R ++ [c.name]) k c) ∧ ∀ n k c, s.At (R ++ [n]) k c → c ∈ L ∧ c.name = n := by
  have hTop := h.tree.rooted.root_live
  have hHead : s.view.head b = i.children := by simp [view, hAt.2]
  have hChain := h.tree.links b
  rw [hHead] at hChain
  obtain ⟨L, hL, hAll⟩ := siblings_eq hChain (fun x hx => h.tree.live_of_mem hx) (h.tree.length_lt_walkFuel b)
  have hName : ∀ {x c}, s.inodes x = some c → s.view.name x = some c.name := by
    intro x c hc
    simp [view, hc]
  refine ⟨L, ?_, ?_, ?_⟩
  · simp [ramfsReaddir, hAt.2, hDir, hL]
  · intro c hc
    obtain ⟨x, hx, hc⟩ := (hAll c).mp hc
    exact ⟨x, (h.tree.resolve_concat hTop).mpr ⟨b, hAt.1, hx, hName hc⟩, hc⟩
  · rintro n k c ⟨hk, hc⟩
    obtain ⟨p, hp, hMem, hLabel⟩ := (h.tree.resolve_concat hTop).mp hk
    obtain rfl := Option.some.inj (hAt.1.symm.trans hp)
    exact ⟨(hAll c).mpr ⟨k, hMem, hc⟩, Option.some.inj ((hName hc).symm.trans hLabel)⟩

/-! ### Loading a file -/

theorem load_file (hGood : s.Good) {D : List UInt8} (hStored : Stored s (components path) a D i) (hPath : path ≠ []) :
    mediaLoadFileFromExactPath supply s path = some (if D = [] then (-eInval, []) else (0, D)) := by
  rcases hGood.vfsOpen_rdOnly hPath (supply.inode s) with ⟨hNone, -⟩ | ⟨b, j, size, hAt, hSize, -, hOpen⟩
  · rw [hStored.at_path.objAt] at hNone
    cases hNone
  obtain ⟨rfl, rfl⟩ := hAt.unique hStored.at_path
  rw [hStored.file] at hOpen
  obtain rfl : size = D.length := by rw [hSize hStored.file, hStored.size]
  have hLt := hStored.sound.size_lt
  rw [hStored.size] at hLt
  have hSize' : toSize D.length = D.length := by
    rw [toSize_of_nonneg (by omega) (by omega), Int.toNat_natCast]
  by_cases hEmpty : D = []
  · simp [mediaLoadFileFromExactPath, hOpen, hEmpty]
  · have hPos : 0 < D.length := List.length_pos_iff.mpr hEmpty
    obtain ⟨m, hm⟩ : ∃ m, D.length = m + 1 := ⟨D.length - 1, by omega⟩
    have hRead := hStored.vfsRead (Nat.zero_le _) D.length D.length
    rw [List.drop_zero, List.take_length, Nat.zero_add, Nat.cast_zero] at hRead
    have hLoop : loadLoop s D.length (D.length + 1) ⟨false, b, D.length, 0⟩ [] = some (0, D) := by
      rw [loadLoop, if_pos (by simpa using hPos), List.length_nil, Nat.sub_zero, hRead]
      simp only [Option.bind_eq_bind, Option.bind_some, List.nil_append]
      rw [if_neg (by omega), if_neg (by omega), hm, loadLoop, if_neg (by omega)]
    simp only [mediaLoadFileFromExactPath, hOpen, Option.bind_eq_bind, Option.bind_some, hSize', hLoop]
    rw [if_neg (by omega), if_neg (by omega), if_neg hEmpty]
    simp

theorem load_dir (hGood : s.Good) (hAt : s.At (components path) a i) (hDir : sIsDir i.mode = true)
    (hPath : path ≠ []) : ∃ ret, mediaLoadFileFromExactPath supply s path = some (ret, []) ∧ ret ≠ 0 := by
  rcases hGood.vfsOpen_rdOnly hPath (supply.inode s) with ⟨hNone, -⟩ | ⟨b, j, size, hAt', -, hLt, hOpen⟩
  · rw [hAt.objAt] at hNone
    cases hNone
  obtain ⟨rfl, rfl⟩ := hAt'.unique hAt
  rw [hDir] at hOpen
  simp only [mediaLoadFileFromExactPath, hOpen, Option.bind_eq_bind, Option.bind_some]
  by_cases hSize : size ≤ 0
  · exact ⟨-eInval, by rw [if_pos hSize]; rfl, by decide⟩
  · obtain ⟨m, hm⟩ : ∃ m, toSize size = m + 1 := by
      refine ⟨toSize size - 1, ?_⟩
      rw [toSize_of_nonneg (by omega) (by omega)]
      omega
    have hLoop : loadLoop s (toSize size) (toSize size + 1) ⟨true, b, size, 0⟩ [] = some (-eInval, []) := by
      rw [hm, loadLoop, if_pos (by simp)]
      rfl
    refine ⟨-eInval, ?_, by decide⟩
    rw [if_neg hSize, if_neg (by omega), hLoop]
    rfl

/-! ### The walk -/

theorem isDir_of_type {m : UInt32} (h : m >>> 12 = 4) : sIsDir m = true := by
  have hType : m.toNat / 2 ^ 12 = 4 := by
    have hNat := congrArg UInt32.toNat h
    simpa [Nat.shiftRight_eq_div_pow] using hNat
  have hHigh : (m.toNat &&& 61440) / 2 ^ 12 = 4 := by
    rw [Nat.and_div_two_pow, hType]
    rfl
  have hLow : (m.toNat &&& 61440) % 2 ^ 12 = 0 := by
    rw [Nat.and_mod_two_pow, show 61440 % 2 ^ 12 = 0 from rfl, Nat.and_zero]
  rw [sIsDir, beq_iff_eq, ← UInt32.toNat_inj, UInt32.toNat_and]
  have hAnd : m.toNat &&& 61440 = 16384 := by omega
  exact hAnd

def IsDot (n : List Char) : Prop := n = ['.'] ∨ n = ['.', '.']

def DotFree (r : List (List Char)) : Prop := ∀ n ∈ r, ¬ IsDot n

def Packs (s : Ramfs) (R : List (List Char)) : Prop :=
  ∀ r b i, r ≠ [] → DotFree r → s.At (R ++ r) b i →
    (sIsDir i.mode = true → i.mode >>> 12 = 4) ∧ (sIsDir i.mode = false → 0 < i.size)

def ChildPacks (s : Ramfs) (R : List (List Char)) (c : RamfsInode) : Prop :=
  ¬ IsDot c.name → (sIsDir c.mode = true → c.mode >>> 12 = 4 ∧ Packs s (R ++ [c.name])) ∧
    (sIsDir c.mode = false → 0 < c.size)

def entryFor (relRoot : List Char) (r : List (List Char)) (content : List UInt8) : MediaZipEntry :=
  ⟨joinAll relRoot r, content, mediaZipCrc32 content⟩

def PackedAt (s : Ramfs) (R : List (List Char)) (relRoot : List Char) (front : List (List Char))
    (e : MediaZipEntry) : Prop :=
  ∃ r content, DotFree (front ++ r) ∧ s.objAt (R ++ (front ++ r)) = some (.file content) ∧
    e = entryFor relRoot (front ++ r) content

def Outcome (entries : List MediaZipEntry) (ok : Prop) (P : MediaZipEntry → Prop) (r : Option PackState) : Prop :=
  ∃ ret entries', r = some (ret, entries') ∧ (ret = 0 ↔ ok) ∧
    (ret = 0 → ∃ E, entries' = entries ++ E ∧ ∀ e, e ∈ E ↔ P e)

theorem Outcome.congr {entries : List MediaZipEntry} {ok ok' : Prop} {P P' : MediaZipEntry → Prop}
    {r : Option PackState} (h : Outcome entries ok P r) (hOk : ok ↔ ok') (hP : ok → ∀ e, P e ↔ P' e) :
    Outcome entries ok' P' r := by
  obtain ⟨ret, entries', hr, hRet, hE⟩ := h
  refine ⟨ret, entries', hr, hRet.trans hOk, fun hZero => ?_⟩
  obtain ⟨E, hEntries, hE⟩ := hE hZero
  exact ⟨E, hEntries, fun e => (hE e).trans (hP (hRet.mp hZero) e)⟩

theorem outcome_fails {entries entries' : List MediaZipEntry} {ok : Prop} {P : MediaZipEntry → Prop} {ret : Int}
    (hRet : ret ≠ 0) (hOk : ¬ ok) : Outcome entries ok P (some (ret, entries')) :=
  ⟨ret, entries', rfl, ⟨fun hZero => absurd hZero hRet, fun h => absurd h hOk⟩, fun hZero => absurd hZero hRet⟩

theorem outcome_foldlM {cb : PackState → List Char × UInt32 → Option PackState} {L : List RamfsInode}
    {ok : RamfsInode → Prop} {P : RamfsInode → MediaZipEntry → Prop}
    (hStay : ∀ ret entries x, ret ≠ 0 → cb (ret, entries) x = some (ret, entries))
    (hOne : ∀ c ∈ L, ∀ entries, Outcome entries (ok c) (P c) (cb (0, entries) (c.name, c.mode >>> 12)))
    (entries : List MediaZipEntry) :
    Outcome entries (∀ c ∈ L, ok c) (fun e => ∃ c ∈ L, P c e)
      ((L.map fun c : RamfsInode => (c.name, c.mode >>> 12)).foldlM cb (0, entries)) := by
  have hFailed : ∀ (xs : List (List Char × UInt32)) ret entries, ret ≠ 0 →
      xs.foldlM cb (ret, entries) = some (ret, entries) := by
    intro xs ret entries hRet
    induction xs with
    | nil => rfl
    | cons x xs ih => rw [List.foldlM_cons, hStay ret entries x hRet, Option.bind_eq_bind, Option.bind_some, ih]
  induction L generalizing entries with
  | nil => exact ⟨0, entries, rfl, by simp, fun _ => ⟨[], by simp, by simp⟩⟩
  | cons c L ih =>
    obtain ⟨ret, entries₁, hCb, hRet, hE⟩ := hOne c (by simp) entries
    rw [List.map_cons, List.foldlM_cons, hCb, Option.bind_eq_bind, Option.bind_some]
    by_cases hZero : ret = 0
    · subst hZero
      obtain ⟨E, rfl, hMem⟩ := hE rfl
      obtain ⟨ret', entries₂, hFold, hRet', hE'⟩ := ih (fun d hd => hOne d (by simp [hd])) (entries ++ E)
      refine ⟨ret', entries₂, hFold, ?_, fun hZero => ?_⟩
      · rw [hRet', List.forall_mem_cons, and_iff_right (hRet.mp rfl)]
      · obtain ⟨E', rfl, hMem'⟩ := hE' hZero
        refine ⟨E ++ E', by simp, fun e => ?_⟩
        rw [List.mem_append, hMem, hMem']
        simp only [List.exists_mem_cons_iff]
    · rw [hFailed _ ret entries₁ hZero]
      exact outcome_fails hZero fun hAll => hZero (hRet.mpr (hAll c (by simp)))

structure Walking (s : Ramfs) (srcRoot relRoot : List Char) (R : List (List Char)) : Prop where
  names : components srcRoot = R
  ne_nil : srcRoot ≠ []
  plain : ∀ r, s.objAt (R ++ r) ≠ none → ∀ n ∈ r, PlainName n
  short : ∀ r, r ≠ [] → s.objAt (R ++ r) ≠ none → (joinAll srcRoot r).length ≤ 255
  relShort : ∀ r, r ≠ [] → s.objAt (R ++ r) ≠ none → (joinAll relRoot r).length ≤ 255

variable {srcRoot relRoot : List Char}

theorem Walking.child (h : Walking s srcRoot relRoot R) (hn : PlainName n) :
    Walking s (joinPath srcRoot n) (joinPath relRoot n) (R ++ [n]) := by
  have hCons : ∀ r, R ++ [n] ++ r = R ++ n :: r := by simp
  refine ⟨?_, (hn.getLast_joinPath srcRoot).1, ?_, ?_, ?_⟩
  · rw [hn.components_joinPath, h.names]
  · intro r hSome m hm
    rw [hCons] at hSome
    exact h.plain _ hSome m (by simp [hm])
  · intro r _ hSome
    rw [hCons] at hSome
    exact h.short _ (by simp) hSome
  · intro r _ hSome
    rw [hCons] at hSome
    exact h.relShort _ (by simp) hSome

theorem Walking.join (h : Walking s srcRoot relRoot R) (hSome : s.objAt (R ++ [n]) ≠ none) :
    PlainName n ∧ mediaZipPathJoin srcRoot n = some (joinPath srcRoot n) ∧
      mediaZipPathJoin relRoot n = some (joinPath relRoot n) := by
  have hn := h.plain [n] hSome n (by simp)
  have hSrc := hn.joinBuffer (h.short [n] (by simp) hSome)
  have hRel := hn.joinBuffer (h.relShort [n] (by simp) hSome)
  refine ⟨hn, ?_, ?_⟩
  · rw [mediaZipPathJoin, hSrc, if_neg (hn.getLast_joinPath srcRoot).1]
  · rw [mediaZipPathJoin, hRel, if_neg (hn.getLast_joinPath relRoot).1]

theorem dotFree_cons {r : List (List Char)} (hn : ¬ IsDot n) : DotFree ([n] ++ r) ↔ DotFree r := by
  rw [DotFree, List.singleton_append, List.forall_mem_cons, and_iff_right hn]
  rfl

theorem packedAt_dir (hn : ¬ IsDot n) (e : MediaZipEntry) :
    PackedAt s (R ++ [n]) (joinPath relRoot n) [] e ↔ PackedAt s R relRoot [n] e := by
  refine exists_congr fun r => exists_congr fun content => ?_
  rw [dotFree_cons hn, List.nil_append, List.append_assoc]
  rfl

theorem packedAt_file (hTree : s.FileTree kids) (hn : ¬ IsDot n) {content : List UInt8}
    (hFile : s.objAt (R ++ [n]) = some (.file content)) (e : MediaZipEntry) :
    e = entryFor relRoot [n] content ↔ PackedAt s R relRoot [n] e := by
  constructor
  · rintro rfl
    exact ⟨[], content, (dotFree_cons hn).mpr (by simp [DotFree]), by simpa using hFile, by simp⟩
  · rintro ⟨r, content', -, hFile', rfl⟩
    cases r with
    | nil =>
      rw [List.append_nil, hFile, Option.some_inj] at hFile'
      cases hFile'
      rfl
    | cons m r =>
      rw [← List.append_assoc] at hFile'
      have hAbove := hTree.objAt_above (P := R ++ [n]) (by rw [hFile']; simp) (by simp : m :: r ≠ [])
      rw [hFile] at hAbove
      cases hAbove

theorem callback_file (hTree : s.FileTree kids) (hAt : s.At (R ++ [c.name]) k c) (hFile : sIsDir c.mode = false)
    (hDot : ¬ IsDot c.name) (hPath : path ≠ []) (hNames : components path = R ++ [c.name])
    (entries : List MediaZipEntry) :
    Outcome entries (ChildPacks s R c) (PackedAt s R relRoot [c.name]) (do
      let (ret, data) ← mediaLoadFileFromExactPath supply s path
      if ret ≠ 0 then return (ret, entries)
      else return (0, mediaZipBuilderAddFile entries (joinPath relRoot c.name) data)) := by
  have hStored : Stored s (components path) k c.bytes c := ⟨hNames ▸ hAt, hFile, hTree.sound hAt.2, rfl⟩
  have hLoad := load_file supply ⟨kids, hTree⟩ hStored hPath
  have hEmpty : c.bytes = [] ↔ c.size = 0 := by
    rw [← List.length_eq_zero_iff, RamfsInode.length_bytes]
  by_cases hZero : c.size = 0
  · rw [if_pos (hEmpty.mpr hZero)] at hLoad
    simp only [hLoad, Option.bind_eq_bind, Option.bind_some]
    rw [if_pos (by decide)]
    refine outcome_fails (by decide) fun hChild => ?_
    have hPos := (hChild hDot).2 hFile
    omega
  · rw [if_neg (mt hEmpty.mp hZero)] at hLoad
    simp only [hLoad, Option.bind_eq_bind, Option.bind_some, ne_eq, not_true, if_false]
    have hChild : ChildPacks s R c := by
      refine fun _ => ⟨fun hDir => ?_, fun _ => Nat.pos_of_ne_zero hZero⟩
      rw [hFile] at hDir
      cases hDir
    have hObj : s.objAt (R ++ [c.name]) = some (.file c.bytes) := by
      rw [hAt.objAt, obj_eq_file.mpr ⟨hFile, rfl⟩]
    refine ⟨0, _, rfl, by simp [hChild], fun _ => ⟨[entryFor relRoot [c.name] c.bytes], rfl, fun e => ?_⟩⟩
    rw [List.mem_singleton]
    exact packedAt_file hTree hDot hObj e

theorem callback_spec (hTree : s.FileTree kids) (hWalk : Walking s srcRoot relRoot R)
    (hAt : s.At (R ++ [c.name]) k c)
    {packDir : List Char → List Char → List MediaZipEntry → Option PackState}
    (hPackDir : sIsDir c.mode = true → ∀ entries, Outcome entries (Packs s (R ++ [c.name]))
      (PackedAt s (R ++ [c.name]) (joinPath relRoot c.name) [])
      (packDir (joinPath srcRoot c.name) (joinPath relRoot c.name) entries))
    (entries : List MediaZipEntry) :
    Outcome entries (ChildPacks s R c) (PackedAt s R relRoot [c.name])
      (mediaZipPackTreeCallback supply s packDir srcRoot relRoot (0, entries) (c.name, c.mode >>> 12)) := by
  have hSome : s.objAt (R ++ [c.name]) ≠ none := by simp [hAt.objAt]
  obtain ⟨hn, hSrc, hRel⟩ := hWalk.join hSome
  have hNames : components (joinPath srcRoot c.name) = R ++ [c.name] := by
    rw [hn.components_joinPath, hWalk.names]
  have hPath := (hn.getLast_joinPath srcRoot).1
  simp only [mediaZipPackTreeCallback, hn.ne_nil, ne_eq, not_true, or_self, if_false, hSrc, hRel]
  by_cases hDot : c.name = ['.'] ∨ c.name = ['.', '.']
  · rw [if_pos hDot]
    refine ⟨0, entries, rfl, ⟨fun _ hNot => absurd hDot hNot, fun _ => rfl⟩, fun _ => ⟨[], by simp, fun e => ?_⟩⟩
    constructor
    · intro hMem
      cases hMem
    · rintro ⟨r, content, hFree, -⟩
      exact absurd hDot (hFree c.name (by simp))
  rw [if_neg hDot]
  split
  · rename_i hType
    have hDir := isDir_of_type hType
    -- the directory is opened once to see that it is there
    rcases Good.vfsOpen_rdOnly ⟨kids, hTree⟩ hPath (supply.inode s) with ⟨hNone, -⟩ | ⟨b, j, size, -, -, -, hOpen⟩
    · rw [hNames] at hNone
      exact absurd hNone hSome
    · obtain ⟨ret, entries', hPack, hRet, hE⟩ := hPackDir hDir entries
      have hOk : ChildPacks s R c ↔ Packs s (R ++ [c.name]) := by
        constructor
        · intro hChild
          exact ((hChild hDot).1 hDir).2
        · intro hPacks _
          refine ⟨fun _ => ⟨hType, hPacks⟩, fun hFile => ?_⟩
          rw [hDir] at hFile
          cases hFile
      simp only [hOpen, hPack, Option.bind_eq_bind, Option.bind_some]
      by_cases hZero : ret = 0
      · obtain ⟨E, rfl, hMem⟩ := hE hZero
        refine ⟨0, entries ++ E, by simp [hZero], by simp [hOk, ← hRet, hZero], fun _ => ⟨E, rfl, fun e => ?_⟩⟩
        rw [hMem, packedAt_dir hDot]
      · rw [if_pos hZero]
        exact outcome_fails (by decide) fun hChild => hZero (hRet.mpr (hOk.mp hChild))
  · rename_i hType
    cases hDir : sIsDir c.mode with
    | true =>
      rw [← hNames] at hAt
      obtain ⟨ret, hLoad, hRet⟩ := load_dir supply ⟨kids, hTree⟩ hAt hDir hPath
      simp only [hLoad, Option.bind_eq_bind, Option.bind_some, if_pos hRet]
      exact outcome_fails hRet fun hChild => hType ((hChild hDot).1 hDir).1
    | false => exact callback_file supply hTree hAt hDir hDot hPath hNames entries

theorem packs_iff (hTree : s.FileTree kids) {L : List RamfsInode} (hListed : ∀ c ∈ L, ∃ k, s.At (R ++ [c.name]) k c)
    (hAll : ∀ n k c, s.At (R ++ [n]) k c → c ∈ L ∧ c.name = n) :
    (∀ c ∈ L, ChildPacks s R c) ↔ Packs s R := by
  constructor
  · intro hChildren r b i hr hFree hAt
    cases r with
    | nil => exact absurd rfl hr
    | cons n r =>
      have hn : ¬ IsDot n := hFree n (by simp)
      have hCons : R ++ n :: r = R ++ [n] ++ r := by simp
      cases r with
      | nil =>
        obtain ⟨hc, rfl⟩ := hAll n b i hAt
        obtain ⟨hDir, hFile⟩ := hChildren i hc hn
        exact ⟨fun h => (hDir h).1, hFile⟩
      | cons m r =>
        rw [hCons] at hAt
        have hAbove := hTree.objAt_above (P := R ++ [n]) (by rw [hAt.objAt]; simp) (by simp : m :: r ≠ [])
        obtain ⟨k, c, hc, hDir⟩ := objAt_eq_some.mp hAbove
        obtain ⟨hMem, rfl⟩ := hAll n k c hc
        have hPacks := ((hChildren c hMem hn).1 (obj_eq_dir.mp hDir)).2
        exact hPacks _ b i (by simp) (fun k hk => hFree k (by simp [List.mem_cons.mp hk])) hAt
  · intro hPacks c hc hDot
    obtain ⟨k, hk⟩ := hListed c hc
    have hFree : DotFree [c.name] := fun m hm => List.mem_singleton.mp hm ▸ hDot
    obtain ⟨hDir, hFile⟩ := hPacks [c.name] k c (by simp) hFree hk
    refine ⟨fun h => ⟨hDir h, fun r b i hr hFree' hAt => ?_⟩, hFile⟩
    rw [List.append_assoc] at hAt
    exact hPacks _ b i (by simp) ((dotFree_cons hDot).mpr hFree') hAt

theorem packedAt_iff (hTree : s.FileTree kids) {L : List RamfsInode}
    (hAll : ∀ n k c, s.At (R ++ [n]) k c → c ∈ L ∧ c.name = n) (hDir : s.objAt R = some .dir) (e : MediaZipEntry) :
    (∃ c ∈ L, PackedAt s R relRoot [c.name] e) ↔ PackedAt s R relRoot [] e := by
  constructor
  · rintro ⟨c, -, r, content, hFree, hFile, rfl⟩
    exact ⟨[c.name] ++ r, content, hFree, hFile, rfl⟩
  · rintro ⟨r, content, hFree, hFile, rfl⟩
    rw [List.nil_append] at hFree hFile ⊢
    cases r with
    | nil =>
      rw [List.append_nil, hDir] at hFile
      cases hFile
    | cons n r =>
      have hSome : s.objAt (R ++ [n]) ≠ none := by
        cases r with
        | nil => simp [hFile]
        | cons m r =>
          have hAbove := hTree.objAt_above (P := R ++ [n]) (by simp [hFile]) (by simp : m :: r ≠ [])
          simp [hAbove]
      obtain ⟨o, ho⟩ := Option.ne_none_iff_exists'.mp hSome
      obtain ⟨k, c, hc, -⟩ := objAt_eq_some.mp ho
      obtain ⟨hMem, rfl⟩ := hAll n k c hc
      exact ⟨c, hMem, r, content, hFree, hFile, rfl⟩

theorem packTreeDir_spec {fuel : Nat} (hTree : s.FileTree kids) (hWalk : Walking s srcRoot relRoot R)
    (hDir : s.objAt R = some .dir) (hFuel : 256 ≤ srcRoot.length + fuel) (hLen : srcRoot.length ≤ 255)
    (entries : List MediaZipEntry) :
    Outcome entries (Packs s R) (PackedAt s R relRoot []) (mediaZipPackTreeDir supply s fuel srcRoot relRoot entries) := by
  induction fuel generalizing srcRoot relRoot R entries with
  | zero => omega
  | succ fuel ih =>
    rw [← hWalk.names] at hDir
    rcases Good.vfsOpen_rdOnly ⟨kids, hTree⟩ hWalk.ne_nil (supply.inode s) with
      ⟨hNone, -⟩ | ⟨b, i, size, hAt, -, -, hOpen⟩
    · rw [hNone] at hDir
      cases hDir
    have hIsDir : sIsDir i.mode = true := by
      rw [hAt.objAt, Option.some_inj] at hDir
      exact obj_eq_dir.mp hDir
    rw [hWalk.names] at hAt hDir
    obtain ⟨L, hReaddir, hListed, hAll⟩ := readdir_spec hTree hAt hIsDir
    have hOne : ∀ c ∈ L, ∀ entries, Outcome entries (ChildPacks s R c) (PackedAt s R relRoot [c.name])
        (mediaZipPackTreeCallback supply s (mediaZipPackTreeDir supply s fuel) srcRoot relRoot (0, entries)
          (c.name, c.mode >>> 12)) := by
      intro c hc entries
      obtain ⟨k, hk⟩ := hListed c hc
      have hSome : s.objAt (R ++ [c.name]) ≠ none := by simp [hk.objAt]
      have hn := (hWalk.join hSome).1
      refine callback_spec supply hTree hWalk hk (fun hChild entries => ?_) entries
      have hShort := hWalk.short [c.name] (by simp) hSome
      have hLonger := length_joinPath_le srcRoot c.name
      have hPos : 0 < c.name.length := List.length_pos_iff.mpr hn.ne_nil
      refine ih (hWalk.child hn) ?_ (by omega) hShort entries
      rw [hk.objAt, obj_eq_dir.mpr hChild]
    rw [mediaZipPackTreeDir, if_neg hWalk.ne_nil]
    simp only [hOpen, hIsDir, hReaddir, if_true, Option.bind_eq_bind, Option.bind_some, List.foldlM_cons]
    have hFold := outcome_foldlM (fun ret entries x hRet => by simp [mediaZipPackTreeCallback, hRet]) hOne entries
    exact hFold.congr (packs_iff hTree hListed hAll) fun _ e => packedAt_iff hTree hAll hDir e

end UnixOS.Media
