import UnixOS.Syscall.Syscalls

/-! # Kernel memory and the pointers of system calls

The kernel image and its early heap lie in [0x40000000, 0x44000000). When a call stays out of it is said in
terms of the arguments, the descriptor table and memory, whatever files and keyboard deliver.
-/

namespace UnixOS.Syscall

def InKernel (a : UInt64) : Prop := 0x40000000 ≤ a ∧ a < 0x44000000

def Avoids (mem : UInt64 → UInt8) (accesses : List Access) : Prop :=
  ∀ acc ∈ accesses, ∀ a, acc.Touches mem a → ¬InKernel a

/-- No byte of the kernel is read or written through the arguments, whatever the surroundings answer. -/
def AvoidsKernel (s : State) (nr : UInt64) (x : Args) : Prop :=
  ∀ env, Avoids s.mem (handleSyscall env s nr x).accesses

/-- The range `[ptr, ptr + len)` holds no byte of the kernel. -/
def RangeDisjoint (ptr len : UInt64) : Prop := ∀ a, (a - ptr).toNat < len.toNat → ¬InKernel a

/-! ### The condition -/

def RangeOutside (p : UInt64) (n : Nat) : Prop :=
  n = 0 ∨ p.toNat + n ≤ 0x40000000 ∨ (0x44000000 ≤ p.toNat ∧ p.toNat + n ≤ 2 ^ 64 + 0x40000000)

def Crosses (p n : UInt64) : Prop := p.toNat < 0x40000000 ∧ 0x40000000 < p.toNat + n.toNat

def StringOutside (mem : UInt64 → UInt8) (p : UInt64) : Prop :=
  ¬InKernel p ∧ ∃ z, mem z = 0 ∧ z - p < 0x40000000 - p

namespace State

variable (s : State)

def CanRead (fd : UInt64) : Prop :=
  fd = 0 ∨ ∃ f, s.initFdTable.getFile (intFd fd) = some f ∧ f.hasRead = true

def CanWrite (fd buf : UInt64) : Prop :=
  fd = 1 ∨ fd = 2 ∨ buf ≠ 0 ∧ ∃ f, s.initFdTable.getFile (intFd fd) = some f ∧ f.hasWrite = true

def HasFreeFd : Prop := s.initFdTable.freeFdFound ≠ none

end State

def utsSize : Nat := 390

/-- What each call asks of its arguments, so that it stays out of the kernel. -/
def ArgumentsOutside (s : State) (nr : UInt64) (x : Args) : Prop :=
  match syscallTable nr with
  | .read => isValidUserPtr x.x1 x.x2 = true → s.CanRead x.x0 → ¬Crosses x.x1 x.x2
  | .write => s.CanWrite x.x0 x.x1 → RangeOutside x.x1 x.x2.toNat
  | .openat => s.HasFreeFd → x.x1 ≠ 0 → StringOutside s.mem x.x1
  | .execve => x.x0 ≠ 0 → StringOutside s.mem x.x0
  | .uname => RangeOutside x.x0 utsSize
  | _ => True

/-! ### Ranges and strings -/

theorem toNat_sub (a p : UInt64) : (a - p).toNat = (2 ^ 64 - p.toNat + a.toNat) % 2 ^ 64 :=
  UInt64.toNat_sub a p

theorem inKernel_iff (a : UInt64) : InKernel a ↔ 0x40000000 ≤ a.toNat ∧ a.toNat < 0x44000000 := by
  rw [InKernel, UInt64.le_iff_toNat_le, UInt64.lt_iff_toNat_lt]
  rfl

theorem toNat_kernelStart : (0x40000000 : UInt64).toNat = 0x40000000 := rfl

theorem rangeOutside_iff (p : UInt64) {n : Nat} (hn : n ≤ 2 ^ 64) :
    (∀ a : UInt64, (a - p).toNat < n → ¬InKernel a) ↔ RangeOutside p n := by
  have hp := p.toNat_lt
  constructor
  · intro h
    -- the pointer itself, and the first byte of the kernel, are the two addresses to look at
    have hAtStart := h p
    have hAtKernel := h 0x40000000
    rw [inKernel_iff, toNat_sub] at hAtStart hAtKernel
    rw [toNat_kernelStart] at hAtKernel
    rw [RangeOutside]
    omega
  · intro h a hlt hIn
    rw [inKernel_iff] at hIn
    rw [toNat_sub] at hlt
    rw [RangeOutside] at h
    omega

theorem stringOutside_iff (mem : UInt64 → UInt8) (p : UInt64) :
    (∀ a, (Access.loadString p).Touches mem a → ¬InKernel a) ↔ StringOutside mem p := by
  constructor
  · intro h
    have hStart : ¬InKernel p := by
      apply h p
      intro x hx
      rw [UInt64.sub_self] at hx
      exact absurd hx (by simp)
    refine ⟨hStart, ?_⟩
    by_contra hNone
    apply h 0x40000000
    · intro x hx hZero
      exact hNone ⟨x, hZero, hx⟩
    · rw [inKernel_iff, toNat_kernelStart]
      omega
  · rintro ⟨hStart, z, hZero, hz⟩ a hTouch hIn
    apply hTouch z _ hZero
    rw [inKernel_iff] at hStart hIn
    rw [UInt64.lt_iff_toNat_lt, toNat_sub, toNat_sub] at hz ⊢
    rw [toNat_kernelStart] at hz
    have hp := p.toNat_lt
    have hzlt := z.toNat_lt
    omega

/-! ### The pointer check -/

theorem isValidUserPtr_spec (ptr len : UInt64) : isValidUserPtr ptr len = true ↔
    ptr ≠ 0 ∧ ptr.toNat + len.toNat < 2 ^ 64 ∧ (ptr.toNat < 0x40000000 ∨ 0x50000000 ≤ ptr.toNat ∨
      0x44000000 ≤ ptr.toNat ∧ ptr.toNat + len.toNat < 0x50000000) := by
  have hp := ptr.toNat_lt
  have hl := len.toNat_lt
  have hMax : (0xFFFFFFFFFFFFFFFF - len).toNat = 2 ^ 64 - 1 - len.toNat := by
    rw [UInt64.toNat_sub_of_le _ _ (by rw [UInt64.le_iff_toNat_le]; change _ ≤ 2 ^ 64 - 1; omega)]
    rfl
  have hWrap : ¬(len > 0 ∧ ptr > 0xFFFFFFFFFFFFFFFF - len) ↔ ptr.toNat + len.toNat < 2 ^ 64 := by
    rw [gt_iff_lt, gt_iff_lt, UInt64.lt_iff_toNat_lt, UInt64.lt_iff_toNat_lt, hMax]
    change ¬(0 < len.toNat ∧ _) ↔ _
    omega
  rw [isValidUserPtr]
  split
  case isTrue hNull => exact ⟨fun h => absurd h (by decide), fun h => absurd hNull h.1⟩
  case isFalse hNull =>
  split
  case isTrue hOver => exact ⟨fun h => absurd h (by decide), fun h => absurd hOver (hWrap.mpr h.2.1)⟩
  case isFalse hOver =>
  have hFits := hWrap.mp hOver
  have hSum : (ptr + len).toNat = ptr.toNat + len.toNat := by
    rw [UInt64.toNat_add, Nat.mod_eq_of_lt hFits]
  simp only [ge_iff_le, UInt64.le_iff_toNat_le, UInt64.lt_iff_toNat_lt, hSum, kernelStart, kernelEnd,
    UInt64.reduceToNat]
  split
  case isTrue hHeap => exact ⟨fun _ => ⟨hNull, hFits, by omega⟩, fun _ => rfl⟩
  case isFalse hHeap =>
  split
  case isTrue hProgram => exact ⟨fun _ => ⟨hNull, hFits, by omega⟩, fun _ => rfl⟩
  case isFalse hProgram =>
  split
  case isTrue hKernel => exact ⟨fun h => absurd h (by decide), fun h => by omega⟩
  case isFalse hKernel => exact ⟨fun _ => ⟨hNull, hFits, by omega⟩, fun _ => rfl⟩

theorem rangeOutside_of_valid {ptr len : UInt64} (h : isValidUserPtr ptr len = true) :
    RangeOutside ptr len.toNat ↔ ¬Crosses ptr len := by
  obtain ⟨-, hFits, hWhere⟩ := (isValidUserPtr_spec ptr len).mp h
  rw [RangeOutside, Crosses]
  omega

theorem rangeDisjoint_iff (ptr len : UInt64) : RangeDisjoint ptr len ↔ RangeOutside ptr len.toNat :=
  rangeOutside_iff ptr len.toNat_lt.le

/-! ### Lists of accesses -/

section Lists

variable {mem : UInt64 → UInt8}

@[simp] theorem avoids_nil : Avoids mem [] := by
  intro acc hMem
  cases hMem

@[simp] theorem avoids_cons {acc : Access} {rest : List Access} :
    Avoids mem (acc :: rest) ↔ (∀ a, acc.Touches mem a → ¬InKernel a) ∧ Avoids mem rest :=
  List.forall_mem_cons

theorem avoids_load (p n : UInt64) : Avoids mem [.load p n] ↔ RangeOutside p n.toNat := by
  rw [avoids_cons, ← rangeOutside_iff p n.toNat_lt.le]
  exact and_iff_left avoids_nil

theorem avoids_store (p : UInt64) {bytes : List UInt8} (h : bytes.length ≤ 2 ^ 64) :
    Avoids mem [.store p bytes] ↔ RangeOutside p bytes.length := by
  rw [avoids_cons, ← rangeOutside_iff p h]
  exact and_iff_left avoids_nil

theorem avoids_loadString (p : UInt64) : Avoids mem [.loadString p] ↔ StringOutside mem p := by
  rw [avoids_cons, stringOutside_iff]
  exact and_iff_left avoids_nil

theorem avoids_of_within {p : UInt64} {n : Nat} {accesses : List Access} (hn : n ≤ 2 ^ 64)
    (hOut : RangeOutside p n)
    (hIn : ∀ acc ∈ accesses, ∀ a, acc.Touches mem a → (a - p).toNat < n) : Avoids mem accesses := by
  intro acc hMem a hTouch
  exact (rangeOutside_iff p hn).mpr hOut a (hIn acc hMem a hTouch)

theorem RangeOutside.mono {p : UInt64} {n m : Nat} (h : RangeOutside p n) (hm : m ≤ n) :
    RangeOutside p m := by
  rw [RangeOutside] at h ⊢
  omega

theorem store_within {p a : UInt64} {k n : Nat} {bytes : List UInt8} (hk : k + bytes.length ≤ n)
    (hn : n ≤ 2 ^ 64) (h : (Access.store (p + UInt64.ofNat k) bytes).Touches mem a) :
    (a - p).toNat < n := by
  rw [Access.Touches, toNat_sub, UInt64.toNat_add, UInt64.toNat_ofNat'] at h
  rw [toNat_sub]
  have hp := p.toNat_lt
  have ha := a.toNat_lt
  omega

end Lists

/-! ### Each call -/

def generous (keys : List Int) : Env where
  getc := keys
  fileRead _ count := (List.replicate count.toNat 0, count.toNat)
  fileRead_le _ _ := by simp
  fileWrite _ count := (count, count.toNat)
  fileWrite_le _ _ := UInt64.le_refl _
  lseek _ _ _ := 0
  vfsOpen _ _ _ := none
  loadProgram _ := 0
  current := none

theorem readKeys_within {mem : UInt64 → UInt8} (buf count : UInt64) (input : List Int) (n : UInt64) :
    ∀ acc ∈ (readKeys buf count input n).1, ∀ a, acc.Touches mem a → (a - buf).toNat < count.toNat := by
  induction input generalizing n with
  | nil =>
    intro acc hMem
    cases hMem
  | cons c input ih =>
    have hHere : n < count → ∀ b a, (Access.store (buf + n) [b]).Touches mem a →
        (a - buf).toNat < count.toNat := by
      intro hLt b a hTouch
      rw [UInt64.lt_iff_toNat_lt] at hLt
      rw [← UInt64.ofNat_toNat (x := n)] at hTouch
      exact store_within (by simp; omega) count.toNat_lt.le hTouch
    rw [readKeys]
    split_ifs with hLt hChar hNewline hReturn hSome
    · simpa using hHere hLt _
    · simpa using ⟨hHere hLt _, hHere hLt _⟩
    · simpa using ⟨hHere hLt _, ih _⟩
    · simp
    · exact ih n
    · simp

theorem readKeys_reaches (buf count : UInt64) (k : Nat) (n : UInt64) (h : n.toNat + k < count.toNat) :
    Access.store (buf + UInt64.ofNat (n.toNat + k)) [97] ∈
      (readKeys buf count (List.replicate (k + 1) 97) n).1 := by
  have hLt : n < count := by
    rw [UInt64.lt_iff_toNat_lt]
    omega
  induction k generalizing n with
  | zero =>
    simp [readKeys, hLt]
    decide
  | succ k ih =>
    have hNext : (n + 1).toNat = n.toNat + 1 := by
      have hCount := count.toNat_lt
      rw [UInt64.toNat_add, UInt64.toNat_one, Nat.mod_eq_of_lt (by omega)]
    have hLater := ih (n + 1) (by omega) (by rw [UInt64.lt_iff_toNat_lt]; omega)
    rw [hNext, show n.toNat + 1 + k = n.toNat + (k + 1) by omega] at hLater
    rw [List.replicate_succ, readKeys, if_pos hLt, if_pos (by decide), if_neg (by decide),
      if_neg (by decide)]
    exact List.mem_cons_of_mem _ hLater

theorem touches_store_self (mem : UInt64 → UInt8) (p : UInt64) (b : UInt8) (bytes : List UInt8) :
    (Access.store p (b :: bytes)).Touches mem p := by
  simp [Access.Touches]

variable {s : State}

theorem sysRead_avoids (fd buf count : UInt64) :
    (∀ env, Avoids s.mem (sysRead env s fd buf count).accesses) ↔
      (isValidUserPtr buf count = true → s.CanRead fd → ¬Crosses buf count) := by
  by_cases hValid : isValidUserPtr buf count = true
  case neg => simp [sysRead, hValid, State.answer]
  case pos =>
  simp only [hValid, forall_const, ← rangeOutside_of_valid hValid]
  by_cases hKeys : fd = 0
  case pos =>
    have hEq : ∀ env, (sysRead env s fd buf count).accesses = (readKeys buf count env.getc 0).1 := by
      intro env
      simp [sysRead, hValid, hKeys, State.access]
    simp only [hEq]
    constructor
    · intro h _
      rw [← rangeDisjoint_iff]
      intro a hIn
      have hReach := readKeys_reaches buf count (a - buf).toNat 0 (by simpa using hIn)
      have hSelf : buf + UInt64.ofNat ((0 : UInt64).toNat + (a - buf).toNat) = a := by
        rw [UInt64.toNat_zero, Nat.zero_add, UInt64.ofNat_toNat, UInt64.add_comm, UInt64.sub_add_cancel]
      rw [hSelf] at hReach
      exact h (generous (List.replicate ((a - buf).toNat + 1) 97)) _ hReach a (touches_store_self s.mem a 97 [])
    · intro h env
      exact avoids_of_within count.toNat_lt.le (h (Or.inl hKeys)) (readKeys_within buf count _ 0)
  case neg =>
    have hNonzero := ((isValidUserPtr_spec buf count).mp hValid).1
    cases hFile : s.initFdTable.getFile (intFd fd) with
    | none => simp [sysRead, hValid, hKeys, hFile, State.answer, State.CanRead]
    | some f =>
      by_cases hOp : f.hasRead = true
      case neg => simp [sysRead, hValid, hKeys, hFile, hNonzero, hOp, State.answer, State.CanRead]
      case pos =>
      have hEq : ∀ env, (sysRead env s fd buf count).accesses = [.store buf (env.fileRead f count).1] := by
        intro env
        simp [sysRead, hValid, hKeys, hFile, hNonzero, hOp, State.access]
      simp only [hEq]
      constructor
      · intro h _
        have hFull := (avoids_store buf (by simpa [generous] using count.toNat_lt.le)).mp (h (generous []))
        simpa [generous] using hFull
      · intro h env
        have hLe := env.fileRead_le f count
        rw [avoids_store buf (hLe.trans count.toNat_lt.le)]
        exact (h (Or.inr ⟨f, hFile, hOp⟩)).mono hLe

theorem sysWrite_avoids (fd buf count : UInt64) :
    (∀ env, Avoids s.mem (sysWrite env s fd buf count).accesses) ↔
      (s.CanWrite fd buf → RangeOutside buf count.toNat) := by
  by_cases hConsole : fd = 1 ∨ fd = 2
  case pos =>
    have hEq : ∀ env, (sysWrite env s fd buf count).accesses = [.load buf count] := by
      intro env
      simp [sysWrite, hConsole, State.access]
    have hCan : s.CanWrite fd buf := by
      rcases hConsole with h | h
      · exact Or.inl h
      · exact Or.inr (Or.inl h)
    simp only [hEq, avoids_load, hCan, forall_const]
    exact ⟨fun h => h (generous []), fun h _ => h⟩
  case neg =>
    have hCan : s.CanWrite fd buf ↔
        buf ≠ 0 ∧ ∃ f, s.initFdTable.getFile (intFd fd) = some f ∧ f.hasWrite = true := by
      rw [not_or] at hConsole
      simp [State.CanWrite, hConsole]
    rw [hCan]
    cases hFile : s.initFdTable.getFile (intFd fd) with
    | none => simp [sysWrite, hConsole, hFile, State.answer]
    | some f =>
      by_cases hOp : buf ≠ 0 ∧ f.hasWrite = true
      case neg =>
        by_cases hNull : buf = 0
        · simp [sysWrite, hConsole, hFile, hNull, State.answer]
        · simp [sysWrite, hConsole, hFile, hNull, (by simpa [hNull] using hOp : f.hasWrite = false), State.answer]
      case pos =>
      have hEq : ∀ env, (sysWrite env s fd buf count).accesses = [.load buf (env.fileWrite f count).1] := by
        intro env
        simp [sysWrite, hConsole, hFile, hOp, State.access]
      simp only [hEq, avoids_load]
      constructor
      · intro h _
        exact h (generous [])
      · intro h env
        exact (h ⟨hOp.1, f, rfl, hOp.2⟩).mono (UInt64.le_iff_toNat_le.mp (env.fileWrite_le f count))

theorem vfsOpen_avoids (env : Env) (path flags mode : UInt64) :
    Avoids s.mem (vfsOpen env path flags mode).1 ↔ (path ≠ 0 → StringOutside s.mem path) := by
  rw [vfsOpen]
  split
  case isTrue h => simp [h]
  case isFalse h => rw [avoids_loadString, ne_eq, imp_iff_right h]

theorem sysOpenat_accesses (env : Env) (pathname flags mode : UInt64) :
    (sysOpenat env s pathname flags mode).accesses =
      if s.initFdTable.freeFdFound = none then [] else (vfsOpen env pathname flags mode).1 := by
  rw [sysOpenat, State.allocFd]
  cases s.initFdTable.freeFdFound with
  | none => rfl
  | some fd =>
    rcases vfsOpen env pathname flags mode with ⟨accesses, f⟩
    cases f <;> rfl

theorem sysOpenat_avoids (pathname flags mode : UInt64) :
    (∀ env, Avoids s.mem (sysOpenat env s pathname flags mode).accesses) ↔
      (s.HasFreeFd → pathname ≠ 0 → StringOutside s.mem pathname) := by
  simp only [sysOpenat_accesses, State.HasFreeFd]
  by_cases hFd : s.initFdTable.freeFdFound = none
  · simp [hFd]
  · simp only [hFd, if_false, vfsOpen_avoids, ne_eq, not_false_eq_true, forall_const]
    exact ⟨fun h => h (generous []), fun h _ => h⟩

theorem sysExecve_avoids (filename : UInt64) :
    (∀ env, Avoids s.mem (sysExecve env s filename).accesses) ↔
      (filename ≠ 0 → StringOutside s.mem filename) := by
  have hEq : ∀ env, (sysExecve env s filename).accesses = (vfsOpen env filename 0 0).1 := by
    intro env
    rw [sysExecve]
    rcases vfsOpen env filename 0 0 with ⟨accesses, f⟩
    cases f <;> rfl
  simp only [hEq, vfsOpen_avoids]
  exact ⟨fun h => h (generous []), fun h _ => h⟩

theorem sysUname_avoids (buf : UInt64) :
    Avoids s.mem (sysUname s buf).accesses ↔ RangeOutside buf utsSize := by
  constructor
  · intro h
    -- the first and the last byte of the structure are written
    have hStrings : utsStrings.zipIdx.head? = some ([79, 83, 56], 0) ∧ ([], 5) ∈ utsStrings.zipIdx := by
      decide
    have hWritten : ∀ pair ∈ utsStrings.zipIdx, Avoids s.mem (utsField buf pair.1 pair.2) := by
      intro pair hPair acc hMem
      exact h acc (List.mem_flatMap.mpr ⟨pair, hPair, hMem⟩)
    have hFirst := (avoids_cons.mp (hWritten _ (List.mem_of_head? hStrings.1))).1 _
      (touches_store_self _ _ _ _)
    have hLast := (avoids_cons.mp (avoids_cons.mp (hWritten _ hStrings.2)).2).1 _
      (touches_store_self _ _ _ _)
    rw [inKernel_iff, UInt64.toNat_add] at hFirst hLast
    simp only [UInt64.toNat_ofNat', Nat.reduceMul, Nat.reduceAdd] at hFirst hLast
    have hBuf := buf.toNat_lt
    rw [RangeOutside, utsSize]
    omega
  · intro h
    apply avoids_of_within (by decide) h
    intro acc hMem a hTouch
    obtain ⟨⟨text, i⟩, hPair, hField⟩ := List.mem_flatMap.mp hMem
    have hIndex : i < 6 := (List.mem_zipIdx hPair).2.1
    have hTake := List.length_take_le 64 text
    rcases List.mem_cons.mp hField with rfl | hField
    · exact store_within (by rw [utsSize]; omega) (by decide) hTouch
    · obtain rfl := List.mem_singleton.mp hField
      exact store_within (by simp only [utsSize, List.length_singleton]; omega) (by decide) hTouch

/-! ### All calls -/

theorem syscallTable_of_ge {nr : UInt64} (h : nr ≥ nrSyscalls) : syscallTable nr = .notImplemented := by
  have hNr : 512 ≤ nr.toNat := UInt64.le_iff_toNat_le.mp h
  rw [syscallTable]
  split
  case h_23 => rfl
  all_goals omega

theorem handleSyscall_accesses (env : Env) (nr : UInt64) (x : Args) :
    (handleSyscall env s nr x).accesses = ((syscallTable nr).run env s x).accesses := by
  rw [handleSyscall]
  split
  case isTrue h =>
    rw [syscallTable_of_ge h]
    rfl
  case isFalse => rfl

/-- A system call reaches no byte of the kernel through its arguments exactly when these meet the
condition of the call, and the pointer check accepts no such range exactly when the range does not run
into the kernel from below. -/
theorem syscall_reaches_kernel_iff (s : State) (nr : UInt64) (x : Args) (ptr len : UInt64) :
    (AvoidsKernel s nr x ↔ ArgumentsOutside s nr x) ∧
      ((isValidUserPtr ptr len = true → RangeDisjoint ptr len) ↔
        ¬(ptr ≠ 0 ∧ Crosses ptr len ∧ ptr.toNat + len.toNat < 2 ^ 64)) := by
  constructor
  · simp only [AvoidsKernel, ArgumentsOutside, handleSyscall_accesses]
    cases syscallTable nr with
    | read => exact sysRead_avoids _ _ _
    | write => exact sysWrite_avoids _ _ _
    | openat => exact sysOpenat_avoids _ _ _
    | execve => exact sysExecve_avoids _
    | uname =>
      exact ⟨fun h => (sysUname_avoids _).mp (h (generous [])), fun h _ => (sysUname_avoids _).mpr h⟩
    | close =>
      simp only [iff_true, Handler.run, sysClose]
      intro env
      split
      · exact avoids_nil
      · split <;> exact avoids_nil
    | lseek =>
      simp only [iff_true, Handler.run, sysLseek]
      intro env
      split <;> exact avoids_nil
    | _ => exact iff_of_true (fun _ => avoids_nil) trivial
  · constructor
    · rintro h ⟨hNonzero, hCross, hFits⟩
      have hValid : isValidUserPtr ptr len = true :=
        (isValidUserPtr_spec ptr len).mpr ⟨hNonzero, hFits, Or.inl hCross.1⟩
      exact (rangeOutside_of_valid hValid).mp ((rangeDisjoint_iff ptr len).mp (h hValid)) hCross
    · intro h hValid
      obtain ⟨hNonzero, hFits, -⟩ := (isValidUserPtr_spec ptr len).mp hValid
      rw [rangeDisjoint_iff, rangeOutside_of_valid hValid]
      intro hCross
      exact h ⟨hNonzero, hCross, hFits⟩

def bootState : State := ⟨fun _ => ⟨none, 0, false⟩, false, userHeapInit fun _ => 0⟩

/-- One byte of the kernel image goes to the console, and a range of two bytes that ends in it is
accepted. -/
theorem write_reads_kernel :
    ¬AvoidsKernel bootState 64 ⟨1, 0x40000000, 1, 0, 0, 0⟩ ∧
      isValidUserPtr 0x3FFFFFFF 2 = true ∧ ¬RangeDisjoint 0x3FFFFFFF 2 := by
  refine ⟨?_, by decide, ?_⟩
  · intro h
    have hTouch : (Access.load 0x40000000 1).Touches bootState.mem 0x40000000 := by
      rw [Access.Touches]
      decide
    exact h (generous []) _ (List.mem_singleton.mpr rfl) _ hTouch ⟨by decide, by decide⟩
  · intro h
    exact h 0x40000000 (by decide) ⟨by decide, by decide⟩

end UnixOS.Syscall
