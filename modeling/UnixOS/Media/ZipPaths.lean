import UnixOS.Media.ZipExtract

/-! # The paths of packed files

A file is packed under its names joined by slashes, and unpacked below the destination under the same. As
long as no path is cut off, joining keeps the names apart, and the parents of the path that is unpacked are
the directories between the destination and the file.
-/

namespace UnixOS.Media

open Fs

structure PlainName (n : List Char) : Prop where
  ne_nil : n ≠ []
  slash : '/' ∉ n
  backslash : '\\' ∉ n
  nul : '\x00' ∉ n
  byte : ∀ c ∈ n, c.toNat < 256
  fits : n.length ≤ nameMax

def joinPath (base name : List Char) : List Char :=
  if base = [] ∨ base.getLast? = some '/' then base ++ name else base ++ '/' :: name

def joinAll (base : List Char) (names : List (List Char)) : List Char := names.foldl joinPath base

variable {base n x : List Char} {r : List (List Char)}

theorem length_joinPath_le (base name : List Char) : base.length + name.length ≤ (joinPath base name).length := by
  rw [joinPath]
  split <;> simp

theorem joinPath_eq_append (base name : List Char) : ∃ front, joinPath base name = front ++ name := by
  rw [joinPath]
  split
  · exact ⟨base, rfl⟩
  · exact ⟨base ++ ['/'], by simp⟩

theorem PlainName.getLast_joinPath (h : PlainName n) (base : List Char) :
    joinPath base n ≠ [] ∧ (joinPath base n).getLast? ≠ some '/' := by
  obtain ⟨front, hFront⟩ := joinPath_eq_append base n
  rw [hFront]
  constructor
  · simp [h.ne_nil]
  · intro hLast
    rw [List.getLast?_append_of_ne_nil _ h.ne_nil] at hLast
    exact h.slash (List.mem_of_getLast? hLast)

theorem joinPath_plain (h : PlainName n) (base m : List Char) :
    joinPath (joinPath base n) m = joinPath base n ++ '/' :: m := by
  obtain ⟨hNe, hLast⟩ := h.getLast_joinPath base
  rw [joinPath, if_neg]
  rintro (hNil | hSlash)
  · exact hNe hNil
  · exact hLast hSlash

theorem joinPath_append (base y : List Char) (z : List Char) : joinPath base (y ++ z) = joinPath base y ++ z := by
  rw [joinPath, joinPath]
  split <;> simp

theorem joinAll_joinPath (h : PlainName n) (hr : ∀ m ∈ r, PlainName m) (base front : List Char) :
    joinPath base (joinAll (joinPath front n) r) = joinAll (joinPath base (joinPath front n)) r := by
  induction r generalizing front n with
  | nil => rfl
  | cons m r ih =>
    have hm := hr m (by simp)
    have hr' : ∀ k ∈ r, PlainName k := fun k hk => hr k (by simp [hk])
    have hAssoc : joinPath (joinPath base (joinPath front n)) m = joinPath base (joinPath (joinPath front n) m) := by
      obtain ⟨front', hFront⟩ := joinPath_eq_append base (joinPath front n)
      rw [joinPath_plain h, joinPath_append base, joinPath, if_neg]
      rintro (hNil | hSlash)
      · rw [hFront] at hNil
        exact (h.getLast_joinPath front).1 (List.append_eq_nil_iff.mp hNil).2
      · rw [hFront, List.getLast?_append_of_ne_nil _ (h.getLast_joinPath front).1] at hSlash
        exact (h.getLast_joinPath front).2 hSlash
    rw [joinAll, List.foldl_cons, ← joinAll, ih hm hr', joinAll, joinAll, List.foldl_cons, hAssoc]

theorem joinPath_joinAll_nil (hNe : r ≠ []) (hr : ∀ m ∈ r, PlainName m) (base : List Char) :
    joinPath base (joinAll [] r) = joinAll base r := by
  cases r with
  | nil => exact absurd rfl hNe
  | cons m r =>
    have hm := hr m (by simp)
    have hNil : joinPath [] m = m := by simp [joinPath]
    have hr' : ∀ k ∈ r, PlainName k := fun k hk => hr k (by simp [hk])
    have h := joinAll_joinPath hm hr' base []
    rw [hNil] at h
    rw [joinAll, List.foldl_cons, hNil]
    exact h

/-! ### What the buffer holds -/

theorem joinBuffer_eq (hx : x ≠ []) (hHead : x.head? ≠ some '/') (hBack : '\\' ∉ x)
    (hLen : (joinPath base x).length ≤ 255) : joinBuffer base x = joinPath base x := by
  have hBase := length_joinPath_le base x
  have hPos : 0 < x.length := List.length_pos_iff.mpr hx
  have hTake : base.take 255 = base := List.take_of_length_le (by omega)
  have hDrop : x.dropWhile (· == '/') = x := by
    cases x with
    | nil => rfl
    | cons c x =>
      have hc : (c == '/') = false := by simpa using hHead
      simp [hc]
  have hMap : x.map (fun c => if c = '\\' then '/' else c) = x := by
    refine List.map_congr_left (fun c hc => ?_) |>.trans (List.map_id x)
    rw [if_neg]
    · rfl
    · rintro rfl
      exact hBack hc
  simp only [joinBuffer, hTake, hDrop, hMap]
  rw [joinPath] at hLen ⊢
  by_cases hJoin : base = [] ∨ base.getLast? = some '/'
  · rw [if_pos hJoin] at hLen ⊢
    rw [if_neg (by tauto), List.take_of_length_le]
    rw [List.length_append] at hLen
    omega
  · rw [if_neg hJoin] at hLen ⊢
    rw [not_or] at hJoin
    rw [List.length_append, List.length_cons] at hLen
    rw [if_pos ⟨hJoin.1, hJoin.2, by omega⟩, List.take_of_length_le]
    · simp
    · simp
      omega

theorem PlainName.joinBuffer (h : PlainName n) (hLen : (joinPath base n).length ≤ 255) :
    joinBuffer base n = joinPath base n := by
  refine joinBuffer_eq h.ne_nil (fun hHead => h.slash ?_) h.backslash hLen
  exact List.mem_of_head? hHead

theorem mem_joinAll {c : Char} (h : c ∈ joinAll base r) : c ∈ base ∨ c = '/' ∨ ∃ m ∈ r, c ∈ m := by
  induction r generalizing base with
  | nil => exact .inl h
  | cons m r ih =>
    rcases ih h with hBase | hSlash | ⟨k, hk, hc⟩
    · rw [joinPath] at hBase
      split at hBase
      · rcases List.mem_append.mp hBase with hBase | hc
        · exact .inl hBase
        · exact .inr (.inr ⟨m, by simp, hc⟩)
      · rcases List.mem_append.mp hBase with hBase | hc
        · exact .inl hBase
        · rcases List.mem_cons.mp hc with hSlash | hc
          · exact .inr (.inl hSlash)
          · exact .inr (.inr ⟨m, by simp, hc⟩)
    · exact .inr (.inl hSlash)
    · exact .inr (.inr ⟨k, by simp [hk], hc⟩)

theorem joinAll_front (base : List Char) (r : List (List Char)) : base <+: joinAll base r := by
  induction r generalizing base with
  | nil => exact List.prefix_rfl
  | cons m r ih =>
    refine List.IsPrefix.trans ?_ (ih (joinPath base m))
    rw [joinPath]
    split <;> exact List.prefix_append _ _

theorem joinAll_nil (hNe : r ≠ []) (hr : ∀ m ∈ r, PlainName m) : joinAll [] r ≠ [] ∧
    (joinAll [] r).head? ≠ some '/' ∧ (joinAll [] r).getLast? ≠ some '/' ∧ '\\' ∉ joinAll [] r ∧
      '\x00' ∉ joinAll [] r ∧ ∀ c ∈ joinAll [] r, c.toNat < 256 := by
  have hChars : ∀ c ∈ joinAll [] r, c = '/' ∨ ∃ m ∈ r, c ∈ m := by
    intro c hc
    rcases mem_joinAll hc with hNil | hc
    · cases hNil
    · exact hc
  obtain ⟨r', m, rfl⟩ := List.eq_nil_or_concat' r |>.resolve_left hNe
  have hm := hr m (by simp)
  have hLast : joinAll [] (r' ++ [m]) = joinPath (joinAll [] r') m := by
    rw [joinAll, List.foldl_append]
    rfl
  refine ⟨?_, ?_, ?_, ?_, ?_, ?_⟩
  · rw [hLast]
    exact (hm.getLast_joinPath _).1
  · cases hCons : r' ++ [m] with
    | nil => simp at hCons
    | cons k ks =>
      have hk := hr k (by simp [hCons])
      obtain ⟨tail, hTail⟩ := joinAll_front (joinPath [] k) ks
      rw [joinAll, List.foldl_cons, ← joinAll, ← hTail, show joinPath [] k = k by simp [joinPath],
        List.head?_append_of_ne_nil _ hk.ne_nil]
      exact fun hHead => hk.slash (List.mem_of_head? hHead)
  · rw [hLast]
    exact (hm.getLast_joinPath _).2
  · intro hc
    rcases hChars _ hc with hEq | ⟨k, hk, hc⟩
    · cases hEq
    · exact (hr k hk).backslash hc
  · intro hc
    rcases hChars _ hc with hEq | ⟨k, hk, hc⟩
    · cases hEq
    · exact (hr k hk).nul hc
  · intro c hc
    rcases hChars _ hc with rfl | ⟨k, hk, hc⟩
    · decide
    · exact (hr k hk).byte c hc

theorem joinBuffer_joinAll (hNe : r ≠ []) (hr : ∀ m ∈ r, PlainName m) (hLen : (joinAll base r).length ≤ 255) :
    joinBuffer base (joinAll [] r) = joinAll base r := by
  obtain ⟨hNil, hHead, -, hBack, -⟩ := joinAll_nil hNe hr
  have hJoin := joinPath_joinAll_nil hNe hr base
  rw [← hJoin] at hLen ⊢
  exact joinBuffer_eq hNil hHead hBack hLen

/-! ### Components -/

theorem components_append_slash (p q : List Char) :
    components (p ++ '/' :: q) = components p ++ components q := by
  rw [components, pathComponents_append_slash, List.map_append]
  rfl

theorem PlainName.components (h : PlainName n) : components n = [n] := by
  have hComponent : IsComponent n := by
    refine ⟨h.ne_nil, ?_⟩
    rintro c hc rfl
    exact h.slash hc
  rw [Fs.components, pathComponents_component hComponent, List.map_singleton, List.take_of_length_le h.fits]

theorem PlainName.components_joinPath (h : PlainName n) (base : List Char) :
    Fs.components (joinPath base n) = Fs.components base ++ [n] := by
  rw [joinPath]
  split
  · rename_i hJoin
    rcases hJoin with rfl | hSlash
    · exact h.components
    · obtain ⟨front, rfl⟩ := List.getLast?_eq_some_iff.mp hSlash
      rw [List.append_assoc, List.singleton_append, components_append_slash, components_append_slash, h.components]
      simp [Fs.components]
  · rw [components_append_slash, h.components]

theorem components_joinAll (hr : ∀ m ∈ r, PlainName m) (base : List Char) :
    components (joinAll base r) = components base ++ r := by
  induction r generalizing base with
  | nil => simp [joinAll]
  | cons m r ih =>
    rw [joinAll, List.foldl_cons, ← joinAll, ih (fun k hk => hr k (by simp [hk])),
      (hr m (by simp)).components_joinPath, List.append_assoc, List.singleton_append]

/-! ### The parents of a path -/

theorem components_split {t : List Char} {Q : List (List Char)} {m : List Char} (h : components t = Q ++ [m]) :
    Q = [] ∨ ∃ u v, t = u ++ '/' :: v ∧ u ≠ [] ∧ components u = Q := by
  induction t using List.reverseRecOn with
  | nil => simp [components] at h
  | append_singleton t c ih =>
    by_cases hc : c = '/'
    · subst hc
      rw [components_append_slash, show components [] = [] from rfl, List.append_nil] at h
      rcases ih h with hNil | ⟨u, v, rfl, hu, hQ⟩
      · exact .inl hNil
      · exact .inr ⟨u, v ++ ['/'], by simp, hu, hQ⟩
    · by_cases hSlash : '/' ∈ t ++ [c]
      · obtain ⟨v, u, hRev, hv⟩ := List.eq_append_cons_of_mem (List.mem_reverse.mpr hSlash)
        have hEq : t ++ [c] = u.reverse ++ '/' :: v.reverse := by
          rw [← List.reverse_reverse (t ++ [c]), hRev]
          simp
        have hComponent : IsComponent v.reverse := by
          constructor
          · intro hNil
            rw [hNil] at hEq
            have hLast := congrArg List.getLast? hEq
            simp at hLast
            exact hc hLast
          · rintro x hx rfl
            exact hv (List.mem_reverse.mp hx)
        rw [hEq, components_append_slash, components, components, pathComponents_component hComponent] at h
        obtain ⟨hQ, -⟩ := List.append_inj' h rfl
        cases hu : u.reverse with
        | nil =>
          rw [hu] at hQ
          exact .inl hQ.symm
        | cons x xs => exact .inr ⟨u.reverse, v.reverse, hEq, by simp [hu], hQ⟩
      · have hComponent : IsComponent (t ++ [c]) := by
          refine ⟨by simp, ?_⟩
          rintro x hx rfl
          exact hSlash hx
        rw [components, pathComponents_component hComponent, List.map_singleton] at h
        have hLen := congrArg List.length h
        rw [List.length_singleton, List.length_append, List.length_singleton] at hLen
        exact .inl (List.length_eq_zero_iff.mp (by omega))

theorem components_ne_nil {t : List Char} {c : Char} (hMem : c ∈ t) (hc : c ≠ '/') : components t ≠ [] := by
  rw [ne_eq, Vfs.components_eq_nil]
  induction t with
  | nil => cases hMem
  | cons y t ih =>
    by_cases hy : y = '/'
    · subst hy
      rw [pathComponents_slash]
      exact ih ((List.mem_cons.mp hMem).resolve_left hc)
    · have hSplit : (y :: t).takeWhile (· != '/') ++ (y :: t).dropWhile (· != '/') = y :: t :=
        List.takeWhile_append_dropWhile
      have hComponent : IsComponent ((y :: t).takeWhile (· != '/')) := by
        constructor
        · simp [hy]
        · intro x hx
          simpa using List.mem_takeWhile_imp hx
      have hBoundary : AtBoundary ((y :: t).dropWhile (· != '/')) := by
        cases hRest : (y :: t).dropWhile (· != '/') with
        | nil => exact .inl rfl
        | cons z zs =>
          have hNe : (y :: t).dropWhile (· != '/') ≠ [] := by simp [hRest]
          have hHead := List.head_dropWhile_not (· != '/') hNe
          simp only [hRest, List.head_cons, bne_eq_false_iff_eq] at hHead
          exact .inr ⟨zs, by rw [hHead]⟩
      rw [← hSplit, pathComponents_component_append hComponent hBoundary]
      simp

section Ensure

variable {M : PathMap} {path : List Char} {Q : List (List Char)}

theorem mkdirAt_dir {names N : List (List Char)} (h : M names = some .dir) : M.mkdirAt N names = some .dir := by
  rw [PathMap.mkdirAt]
  split
  · rename_i hNew
    by_cases hEq : names = N
    · rw [hEq, Function.update_self]
    · rwa [Function.update_of_ne hEq]
  · exact h

theorem mkdirAt_ne {names N : List (List Char)} (h : names ≠ N) : M.mkdirAt N names = M names := by
  rw [PathMap.mkdirAt]
  split
  · rw [Function.update_of_ne h]
  · rfl

theorem mkdirAt_self {T : List (List Char)} {m : List Char} (hParent : M T = some .dir)
    (hFree : ∀ c, M (T ++ [m]) ≠ some (.file c)) : M.mkdirAt (T ++ [m]) (T ++ [m]) = some .dir := by
  rw [PathMap.mkdirAt, List.dropLast_concat]
  rcases hHere : M (T ++ [m]) with - | (- | c)
  · simp [hParent]
  · simp [hHere]
  · exact absurd hHere (hFree c)

structure Ensured (M : PathMap) (path : List Char) (Q : List (List Char)) (k : Nat) (M' : PathMap) : Prop where
  other : ∀ names, ¬ names <+: Q → M' names = M names
  free : ∀ names c, names <+: Q → M' names ≠ some (.file c)
  root : M' [] = some .dir
  made : ∀ u v, path = u ++ '/' :: v → 0 < u.length → u.length < k →
    ∀ names, names <+: components u → M' names = some .dir

theorem Ensured.step {M' : PathMap} {k : Nat} (h : Ensured M path Q k M') {u v : List Char}
    (hPath : path = u ++ '/' :: v) (hLen : u.length = k) (hSub : components u <+: Q) :
    Ensured M path Q (k + 1) (M'.mkdirAt (components u)) := by
  have hDirs : ∀ names, names <+: components u → M'.mkdirAt (components u) names = some .dir := by
    intro names hNames
    rcases List.eq_nil_or_concat' (components u) with hNil | ⟨T, m, hT⟩
    · rw [hNil] at hNames ⊢
      rw [List.prefix_nil.mp hNames]
      exact mkdirAt_dir h.root
    · have hParents : ∀ names, names <+: T → M' names = some .dir := by
        intro names hNames
        rcases components_split hT with rfl | ⟨w, x, hw, hwNe, hwT⟩
        · rw [List.prefix_nil.mp hNames]
          exact h.root
        · refine h.made w (x ++ '/' :: v) (by simp [hPath, hw]) (List.length_pos_iff.mpr hwNe) ?_ names (hwT ▸ hNames)
          rw [← hLen, hw]
          simp
      rw [hT] at hNames hSub ⊢
      rcases List.prefix_concat_iff.mp hNames with rfl | hUp
      · exact mkdirAt_self (hParents T List.prefix_rfl) fun c => h.free _ c hSub
      · exact mkdirAt_dir (hParents names hUp)
  refine ⟨?_, ?_, mkdirAt_dir h.root, ?_⟩
  · intro names hNames
    rw [mkdirAt_ne, h.other names hNames]
    rintro rfl
    exact hNames hSub
  · intro names c hNames
    by_cases hEq : names = components u
    · rw [hEq, hDirs _ List.prefix_rfl]
      simp
    · rw [mkdirAt_ne hEq]
      exact h.free names c hNames
  · intro w x hw hwPos hwLen names hNames
    rcases Nat.lt_succ_iff_lt_or_eq.mp hwLen with hLess | hEq
    · exact mkdirAt_dir (h.made w x hw hwPos hLess names hNames)
    · obtain ⟨rfl, -⟩ := List.append_inj (hPath.symm.trans hw) (hLen.trans hEq.symm)
      exact hDirs names hNames

variable {n : List Char}

theorem components_before_slash {u v : List Char} (hNames : components path = Q ++ [n])
    (hLast : path.getLast? ≠ some '/') (hPath : path = u ++ '/' :: v) : components u <+: Q := by
  have hRest : components v ≠ [] := by
    rcases List.eq_nil_or_concat' v with rfl | ⟨w, c, rfl⟩
    · simp [hPath] at hLast
    · refine components_ne_nil (c := c) (by simp) ?_
      rintro rfl
      exact hLast (by rw [hPath, ← List.cons_append, ← List.append_assoc, List.getLast?_concat])
  obtain ⟨w, x, hw⟩ := (List.eq_nil_or_concat' (components v)).resolve_left hRest
  rw [hPath, components_append_slash, hw, ← List.append_assoc] at hNames
  exact ⟨w, (List.append_inj' hNames rfl).1⟩

theorem ensured_fold (hNames : components path = Q ++ [n]) (hLast : path.getLast? ≠ some '/')
    (hRoot : M [] = some .dir) (hFree : ∀ names c, names <+: Q → M names ≠ some (.file c)) (k : Nat) :
    Ensured M path Q k ((List.range k).foldl (fun M i =>
      if 0 < i ∧ path[i]? = some '/' then M.mkdirAt (components (path.take (i + 1))) else M) M) := by
  induction k with
  | zero => exact ⟨fun _ _ => rfl, hFree, hRoot, fun _ _ _ _ hLen => absurd hLen (Nat.not_lt_zero _)⟩
  | succ k ih =>
    rw [List.range_succ, List.foldl_append, List.foldl_cons, List.foldl_nil]
    split
    · rename_i hSlash
      have hLt : k < path.length := (List.getElem?_eq_some_iff.mp hSlash.2).1
      have hPath : path = path.take k ++ '/' :: path.drop (k + 1) := by
        conv_lhs => rw [← List.take_append_drop k path, List.drop_eq_getElem_cons hLt]
        rw [(List.getElem?_eq_some_iff.mp hSlash.2).2]
      have hTake : components (path.take (k + 1)) = components (path.take k) := by
        rw [List.take_add_one, hSlash.2, Option.toList_some, components_append_slash]
        simp [components]
      have hSub : components (path.take k) <+: Q := components_before_slash hNames hLast hPath
      rw [hTake]
      exact ih.step hPath (by simp; omega) hSub
    · rename_i hOther
      refine ⟨ih.other, ih.free, ih.root, fun u v hPath hPos hLen => ?_⟩
      rcases Nat.lt_succ_iff_lt_or_eq.mp hLen with hLess | hEq
      · exact ih.made u v hPath hPos hLess
      · refine absurd ⟨hEq ▸ hPos, ?_⟩ hOther
        rw [hPath, ← hEq]
        simp

theorem ensureAt_spec (hNames : components path = Q ++ [n]) (hLast : path.getLast? ≠ some '/')
    (hLen : path.length ≤ 255) (hRoot : M [] = some .dir)
    (hFree : ∀ names c, names <+: Q → M names ≠ some (.file c)) :
    (∀ names, names <+: Q → M.ensureAt path names = some .dir) ∧
      ∀ names, ¬ names <+: Q → M.ensureAt path names = M names := by
  have h := ensured_fold hNames hLast hRoot hFree path.length
  rw [PathMap.ensureAt, Nat.min_eq_left hLen]
  refine ⟨fun names hSub => ?_, h.other⟩
  rcases components_split hNames with rfl | ⟨u, v, hPath, hu, hQ⟩
  · rw [List.prefix_nil.mp hSub]
    exact h.root
  · refine h.made u v hPath (List.length_pos_iff.mpr hu) ?_ names (hQ ▸ hSub)
    rw [hPath]
    simp

theorem writeAt_spec (hNames : components path = Q ++ [n]) (hLast : path.getLast? ≠ some '/')
    (hLen : path.length ≤ 255) (hRoot : M [] = some .dir)
    (hFree : ∀ names c, names <+: Q → M names ≠ some (.file c)) (hHere : M (Q ++ [n]) ≠ some .dir)
    (data : List UInt8) :
    (M.writeAt path data).2 = true ∧ (M.writeAt path data).1 (Q ++ [n]) = some (.file data) ∧
      (∀ names, names <+: Q → (M.writeAt path data).1 names = some .dir) ∧
      ∀ names, ¬ names <+: Q → names ≠ Q ++ [n] → (M.writeAt path data).1 names = M names := by
  obtain ⟨hDirs, hOther⟩ := ensureAt_spec hNames hLast hLen hRoot hFree
  have hNot : ¬ Q ++ [n] <+: Q := by
    intro hSub
    have hLen := hSub.length_le
    rw [List.length_append, List.length_singleton] at hLen
    omega
  have hNe : ∀ names, names <+: Q → names ≠ Q ++ [n] := by
    rintro names hSub rfl
    exact hNot hSub
  have hGone : (M.ensureAt path).unlinkAt (Q ++ [n]) (Q ++ [n]) ≠ some .dir := by
    rw [← hOther _ hNot] at hHere
    exact PathMap.unlinkAt_self_ne_dir _ hHere
  have hParent : (M.ensureAt path).unlinkAt (Q ++ [n]) Q = some .dir := by
    rw [PathMap.unlinkAt_ne _ (hNe Q List.prefix_rfl), hDirs Q List.prefix_rfl]
  rw [PathMap.writeAt, hNames, PathMap.storeAt, if_neg hGone, List.dropLast_concat, if_pos hParent]
  refine ⟨rfl, Function.update_self _ _ _, fun names hSub => ?_, fun names hSub hNames => ?_⟩
  · dsimp only
    rw [Function.update_of_ne (hNe names hSub), PathMap.unlinkAt_ne _ (hNe names hSub), hDirs names hSub]
  · dsimp only
    rw [Function.update_of_ne hNames, PathMap.unlinkAt_ne _ hNames, hOther names hSub]

end Ensure

end UnixOS.Media
