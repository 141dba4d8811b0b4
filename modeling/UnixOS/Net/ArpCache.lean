import UnixOS.Net.TcpIp

/-! # Address bindings in the ARP cache

`arp_add` takes a free slot, or the oldest one, without a look at the entries for the same address; `arp_lookup`
returns the first one. All entries get the same time, so that the oldest of a full cache is always the first.
-/

namespace UnixOS.Net

open ByteMemory

def arpLookup (cache : List ArpEntry) (ip : UInt32) : Option ArpEntry := cache.find? fun e => e.valid && e.ip == ip

structure ArpFrame where
  iface : Nat
  frame : Mem
  pos : Nat

namespace ArpFrame

def senderIp (f : ArpFrame) : UInt32 := load32 f.frame (f.pos + 14)

def senderMac (f : ArpFrame) : Mac := loadMac f.frame (f.pos + 8)

def IsReply (f : ArpFrame) : Prop := ntohs (load16 f.frame (f.pos + 6)) = 2

instance (f : ArpFrame) : Decidable f.IsReply := inferInstanceAs (Decidable (_ = _))

end ArpFrame

def NetStack.afterArp (s : NetStack) (history : List ArpFrame) : NetStack :=
  history.foldl (fun s f => (arpHandle s f.iface f.frame f.pos).1) s

def OneEach (cache : List ArpEntry) : Prop :=
  ∀ (i j : Nat) (e e' : ArpEntry), cache[i]? = some e → cache[j]? = some e' → e.valid = true → e'.valid = true → e.ip = e'.ip → i = j

/-- What a reply that binds `ip` to `mac` should make of the cache. The entry that another address loses is the one
that was overwritten because no slot was free. -/
structure Bound (cache cache' : List ArpEntry) (ip : UInt32) (mac : Mac) : Prop where
  latest : (arpLookup cache' ip).map ArpEntry.mac = some mac
  unique : OneEach cache'
  others : ∀ ip', ip' ≠ ip → arpLookup cache' ip' = arpLookup cache ip' ∨
    ((∀ e ∈ cache, e.valid = true) ∧
      ∃ i : Nat, cache[i]? = arpLookup cache ip' ∧ cache'[i]? = some ⟨ip, mac, 0, true⟩)

/-- There is no entry for the address, or no slot is free and its entry is the first. -/
def Fresh (cache : List ArpEntry) (ip : UInt32) : Prop :=
  (∀ e ∈ cache, e.valid = true → e.ip ≠ ip) ∨
    ((∀ e ∈ cache, e.valid = true) ∧ ∀ (i : Nat) (e : ArpEntry), cache[i]? = some e → e.ip = ip → i = 0)

/-! ### The slot -/

section Slot

variable {cache : List ArpEntry} {i oldest : Nat} {time : UInt64}

theorem arpSlot_free (h : ∃ e ∈ cache, e.valid = false) :
    ∃ (j : Nat) (e : ArpEntry), arpSlot cache i oldest time = i + j ∧ cache[j]? = some e ∧ e.valid = false := by
  induction cache generalizing i oldest time with
  | nil =>
    obtain ⟨e, he, -⟩ := h
    cases he
  | cons e rest ih =>
    unfold arpSlot
    cases hValid : e.valid with
    | false => exact ⟨0, e, rfl, rfl, hValid⟩
    | true =>
      have hRest : ∃ e ∈ rest, e.valid = false := by
        obtain ⟨e', hMem, hFree⟩ := h
        rcases List.mem_cons.mp hMem with rfl | hMem
        · rw [hValid] at hFree
          cases hFree
        · exact ⟨e', hMem, hFree⟩
      have hStep : ∀ oldest time, ∃ (j : Nat) (e' : ArpEntry), arpSlot rest (i + 1) oldest time = i + j ∧ (e :: rest)[j]? = some e' ∧
          e'.valid = false := by
        intro oldest time
        obtain ⟨j, e', hSlot, hAt, hFree⟩ := @ih (i + 1) oldest time hRest
        exact ⟨j + 1, e', hSlot.trans (by omega), hAt, hFree⟩
      simp only [Bool.not_true, Bool.false_eq_true, if_false]
      split
      · exact hStep _ _
      · exact hStep _ _

theorem arpSlot_zero_time (h : ∀ e ∈ cache, e.valid = true ∧ e.timestamp = 0) : arpSlot cache i oldest 0 = oldest := by
  induction cache generalizing i with
  | nil => rfl
  | cons e rest ih =>
    obtain ⟨hValid, hTime⟩ := h e List.mem_cons_self
    have hNot : ¬ (0 : UInt64) < 0 := by decide
    rw [arpSlot, hValid, hTime]
    simp only [Bool.not_true, Bool.false_eq_true, if_false, hNot]
    exact ih fun e' he' => h e' (List.mem_cons_of_mem e he')

theorem arpSlot_full (h : ∀ e ∈ cache, e.valid = true ∧ e.timestamp = 0) : arpSlot cache 0 0 (~~~0) = 0 := by
  cases cache with
  | nil => rfl
  | cons e rest =>
    obtain ⟨hValid, hTime⟩ := h e List.mem_cons_self
    have hLt : (0 : UInt64) < ~~~0 := by decide
    rw [arpSlot, hValid, hTime]
    simp only [Bool.not_true, Bool.false_eq_true, if_false, hLt, if_true]
    exact arpSlot_zero_time fun e' he' => h e' (List.mem_cons_of_mem e he')

end Slot

/-! ### Lookups -/

section Lookup

variable {cache : List ArpEntry} {ip : UInt32} {mac : Mac} {slot : Nat}

theorem OneEach.lookup_iff (h : OneEach cache) {e : ArpEntry} :
    arpLookup cache ip = some e ↔ ∃ i : Nat, cache[i]? = some e ∧ e.valid = true ∧ e.ip = ip := by
  constructor
  · intro hFound
    have hHere := List.find?_some hFound
    rw [Bool.and_eq_true, beq_iff_eq] at hHere
    obtain ⟨i, hi⟩ := List.mem_iff_getElem?.mp (List.mem_of_find?_eq_some hFound)
    exact ⟨i, hi, hHere⟩
  · rintro ⟨i, hi, hValid, hIp⟩
    rcases hFound : arpLookup cache ip with _ | e'
    · have hNone := List.find?_eq_none.mp hFound e (List.mem_of_getElem? hi)
      rw [hValid, hIp] at hNone
      simp at hNone
    · have hHere := List.find?_some hFound
      rw [Bool.and_eq_true, beq_iff_eq] at hHere
      obtain ⟨j, hj⟩ := List.mem_iff_getElem?.mp (List.mem_of_find?_eq_some hFound)
      obtain rfl := h i j e e' hi hj hValid hHere.1 (hIp.trans hHere.2.symm)
      exact hj.symm.trans hi

theorem getElem?_set_slot (hSlot : slot < cache.length) (e : ArpEntry) (i : Nat) :
    (cache.set slot e)[i]? = if i = slot then some e else cache[i]? := by
  rw [List.getElem?_set]
  by_cases hSame : slot = i
  · rw [if_pos hSame, if_pos (hSame ▸ hSlot), if_pos hSame.symm]
  · rw [if_neg hSame, if_neg (Ne.symm hSame)]

theorem OneEach.set_iff (h : OneEach cache) (hSlot : slot < cache.length) :
    OneEach (cache.set slot ⟨ip, mac, 0, true⟩) ↔
      ∀ (i : Nat) (e : ArpEntry), cache[i]? = some e → e.valid = true → e.ip = ip → i = slot := by
  have hNew : (cache.set slot ⟨ip, mac, 0, true⟩)[slot]? = some ⟨ip, mac, 0, true⟩ := by
    rw [getElem?_set_slot hSlot, if_pos rfl]
  constructor
  · intro hSet i e hi hValid hIp
    by_contra hOther
    have hKept : (cache.set slot ⟨ip, mac, 0, true⟩)[i]? = some e := by rw [getElem?_set_slot hSlot, if_neg hOther, hi]
    exact hOther (hSet i slot e _ hKept hNew hValid rfl hIp)
  · intro hOnly i j e e' hi hj hValid hValid' hIp
    rw [getElem?_set_slot hSlot] at hi hj
    split at hi
    case isTrue hSlotI =>
      obtain rfl := Option.some.inj hi
      split at hj
      case isTrue hSlotJ => exact hSlotI.trans hSlotJ.symm
      case isFalse hOther => exact absurd (hOnly j e' hj hValid' hIp.symm) hOther
    case isFalse hOther =>
      split at hj
      case isTrue hSlotJ =>
        obtain rfl := Option.some.inj hj
        exact absurd (hOnly i e hi hValid hIp) hOther
      case isFalse => exact h i j e e' hi hj hValid hValid' hIp

end Lookup

/-! ### Histories -/

structure CacheInv (cache : List ArpEntry) : Prop where
  size : cache.length = arpCacheSize
  unique : OneEach cache
  times : ∀ e ∈ cache, e.valid = true → e.timestamp = 0

section Histories

variable {s : NetStack} {f : ArpFrame}

theorem arpHandle_reply (h : f.IsReply) :
    (arpHandle s f.iface f.frame f.pos).1.arpCache =
      s.arpCache.set (arpSlot s.arpCache 0 0 (~~~0)) ⟨f.senderIp, f.senderMac, 0, true⟩ := by
  unfold ArpFrame.IsReply at h
  unfold arpHandle
  simp only [h]
  rfl

theorem arpHandle_other (h : ¬ f.IsReply) : (arpHandle s f.iface f.frame f.pos).1.arpCache = s.arpCache := by
  unfold ArpFrame.IsReply at h
  unfold arpHandle
  dsimp only
  split
  · split
    · unfold NetStack.transmit
      split <;> rfl
    · rfl
  · rfl

theorem CacheInv.slot (h : CacheInv s.arpCache) :
    arpSlot s.arpCache 0 0 (~~~0) < s.arpCache.length ∧
      ((∀ e, s.arpCache[arpSlot s.arpCache 0 0 (~~~0)]? = some e → e.valid = false) ∨
        ((∀ e ∈ s.arpCache, e.valid = true) ∧ arpSlot s.arpCache 0 0 (~~~0) = 0)) := by
  by_cases hFree : ∃ e ∈ s.arpCache, e.valid = false
  · obtain ⟨j, e, hSlot, hAt, hInvalid⟩ := @arpSlot_free s.arpCache 0 0 (~~~0) hFree
    rw [Nat.zero_add] at hSlot
    rw [hSlot]
    refine ⟨(List.getElem?_eq_some_iff.mp hAt).1, Or.inl fun e' he' => ?_⟩
    obtain rfl := Option.some.inj (hAt.symm.trans he')
    exact hInvalid
  · have hFull : ∀ e ∈ s.arpCache, e.valid = true := fun e he => by
      by_contra hInvalid
      exact hFree ⟨e, he, Bool.not_eq_true _ ▸ hInvalid⟩
    have hSlot := arpSlot_full fun e he => ⟨hFull e he, h.times e he (hFull e he)⟩
    refine ⟨?_, Or.inr ⟨hFull, hSlot⟩⟩
    rw [hSlot, h.size]
    decide

theorem CacheInv.fresh_iff (h : CacheInv s.arpCache) {ip : UInt32} :
    Fresh s.arpCache ip ↔ ∀ (i : Nat) (e : ArpEntry), s.arpCache[i]? = some e → e.valid = true → e.ip = ip →
      i = arpSlot s.arpCache 0 0 (~~~0) := by
  obtain ⟨hSlot, hKind⟩ := h.slot
  constructor
  · rintro (hNone | ⟨hFull, hFirst⟩) i e hi hValid hIp
    · exact absurd hIp (hNone e (List.mem_of_getElem? hi) hValid)
    · rcases hKind with hFree | ⟨-, hZero⟩
      · have hInvalid := hFree _ (List.getElem?_eq_getElem hSlot)
        rw [hFull _ (List.getElem_mem hSlot)] at hInvalid
        cases hInvalid
      · rw [hZero]
        exact hFirst i e hi hIp
  · intro hOnly
    rcases hKind with hFree | ⟨hFull, hZero⟩
    · refine Or.inl fun e he hValid hIp => ?_
      obtain ⟨i, hi⟩ := List.mem_iff_getElem?.mp he
      obtain rfl := hOnly i e hi hValid hIp
      rw [hFree e hi] at hValid
      cases hValid
    · refine Or.inr ⟨hFull, fun i e hi hIp => ?_⟩
      rw [← hZero]
      exact hOnly i e hi (hFull e (List.mem_of_getElem? hi)) hIp

theorem CacheInv.bound_iff (h : CacheInv s.arpCache) (hReply : f.IsReply) :
    Bound s.arpCache (arpHandle s f.iface f.frame f.pos).1.arpCache f.senderIp f.senderMac ↔
      Fresh s.arpCache f.senderIp := by
  obtain ⟨hSlot, hKind⟩ := h.slot
  rw [arpHandle_reply hReply, h.fresh_iff, ← h.unique.set_iff hSlot]
  constructor
  · exact Bound.unique
  · intro hUnique
    refine ⟨?_, hUnique, fun ip' hOther => ?_⟩
    · have hFound : arpLookup _ f.senderIp = some ⟨f.senderIp, f.senderMac, 0, true⟩ :=
        hUnique.lookup_iff.mpr ⟨_, by rw [getElem?_set_slot hSlot, if_pos rfl], rfl, rfl⟩
      rw [hFound]
      rfl
    · rcases hOld : arpLookup s.arpCache ip' with _ | e
      · refine Or.inl ?_
        by_contra hNew
        obtain ⟨e, hFound⟩ := Option.ne_none_iff_exists'.mp hNew
        obtain ⟨i, hi, hValid, hIp⟩ := hUnique.lookup_iff.mp hFound
        rw [getElem?_set_slot hSlot] at hi
        split at hi
        case isTrue =>
          obtain rfl := Option.some.inj hi
          exact hOther hIp.symm
        case isFalse =>
          rw [h.unique.lookup_iff.mpr ⟨i, hi, hValid, hIp⟩] at hOld
          cases hOld
      · obtain ⟨i, hi, hValid, hIp⟩ := h.unique.lookup_iff.mp hOld
        by_cases hSame : i = arpSlot s.arpCache 0 0 (~~~0)
        · rcases hKind with hFree | ⟨hFull, -⟩
          · rw [hFree e (hSame ▸ hi)] at hValid
            cases hValid
          · exact Or.inr ⟨hFull, i, hi, by rw [getElem?_set_slot hSlot, if_pos hSame]⟩
        · exact Or.inl (hUnique.lookup_iff.mpr ⟨i, by rw [getElem?_set_slot hSlot, if_neg hSame, hi], hValid, hIp⟩)

theorem CacheInv.next (h : CacheInv s.arpCache) (hFresh : f.IsReply → Fresh s.arpCache f.senderIp) :
    CacheInv (arpHandle s f.iface f.frame f.pos).1.arpCache := by
  by_cases hReply : f.IsReply
  · have hUnique := ((h.bound_iff hReply).mpr (hFresh hReply)).unique
    rw [arpHandle_reply hReply] at hUnique ⊢
    refine ⟨by rw [List.length_set, h.size], hUnique, fun e he hValid => ?_⟩
    rcases List.mem_or_eq_of_mem_set he with hOld | rfl
    · exact h.times e hOld hValid
    · rfl
  · rw [arpHandle_other hReply]
    exact h

theorem afterArp_succ {history : List ArpFrame} {n : Nat} (h : history[n]? = some f) :
    s.afterArp (history.take (n + 1)) = (arpHandle (s.afterArp (history.take n)) f.iface f.frame f.pos).1 := by
  rw [List.take_add_one, h, NetStack.afterArp, List.foldl_append]
  rfl

theorem cacheInv_take (h : CacheInv s.arpCache) {history : List ArpFrame} {n : Nat}
    (hFresh : ∀ m < n, ∀ f, history[m]? = some f → f.IsReply → CacheInv (s.afterArp (history.take m)).arpCache →
      Fresh (s.afterArp (history.take m)).arpCache f.senderIp) :
    CacheInv (s.afterArp (history.take n)).arpCache := by
  induction n with
  | zero => exact h
  | succ n ih =>
    have hHere := ih fun m hm => hFresh m (Nat.lt_succ_of_lt hm)
    rcases hAt : history[n]? with _ | f
    · rw [List.take_add_one, hAt, Option.toList_none, List.append_nil]
      exact hHere
    · rw [afterArp_succ hAt]
      exact hHere.next fun hReply => hFresh n (Nat.lt_succ_self n) f hAt hReply hHere

end Histories

/-- From an empty cache on, every reply of a history leaves the latest binding if and only if each one is for an address that
is not in the cache, or, once no slot is free, in its first slot. -/
theorem arp_latest_binding_iff (s : NetStack) (hSize : s.arpCache.length = arpCacheSize)
    (hEmpty : ∀ e ∈ s.arpCache, e.valid = false) (history : List ArpFrame) :
    (∀ (n : Nat) (f : ArpFrame), history[n]? = some f → f.IsReply →
      Bound (s.afterArp (history.take n)).arpCache (s.afterArp (history.take (n + 1))).arpCache f.senderIp f.senderMac) ↔
    ∀ (n : Nat) (f : ArpFrame), history[n]? = some f → f.IsReply →
      Fresh (s.afterArp (history.take n)).arpCache f.senderIp := by
  have hStart : CacheInv s.arpCache := by
    refine ⟨hSize, fun i j e e' hi _ hValid => ?_, fun e he hValid => ?_⟩
    · rw [hEmpty e (List.mem_of_getElem? hi)] at hValid
      cases hValid
    · rw [hEmpty e he] at hValid
      cases hValid
  constructor
  · intro hBound
    have hFresh : ∀ (m : Nat) (f : ArpFrame), history[m]? = some f → f.IsReply →
        CacheInv (s.afterArp (history.take m)).arpCache → Fresh (s.afterArp (history.take m)).arpCache f.senderIp := by
      intro m f hAt hReply hInv
      have hHere := hBound m f hAt hReply
      rw [afterArp_succ hAt] at hHere
      exact (hInv.bound_iff hReply).mp hHere
    exact fun n f hAt hReply => hFresh n f hAt hReply (cacheInv_take hStart fun m _ f hAt' hReply' => hFresh m f hAt' hReply')
  · intro hFresh n f hAt hReply
    have hInv := @cacheInv_take s hStart history n fun m _ f hAt hReply _ => hFresh m f hAt hReply
    rw [afterArp_succ hAt]
    exact (hInv.bound_iff hReply).mpr (hFresh n f hAt hReply)

def hostReply (ip mac : UInt8) : ArpFrame :=
  ⟨0, fun i => if i = 7 then 2 else if i = 13 then mac else if i = 17 then ip else 0, 0⟩

theorem arp_latest_binding_hosts :
    Bound ((tcpipInit staticStack).afterArp []).arpCache ((tcpipInit staticStack).afterArp [hostReply 1 1]).arpCache
        (hostReply 1 1).senderIp (hostReply 1 1).senderMac ∧
      Bound ((tcpipInit staticStack).afterArp [hostReply 1 1]).arpCache
        ((tcpipInit staticStack).afterArp [hostReply 1 1, hostReply 2 2]).arpCache (hostReply 2 2).senderIp
        (hostReply 2 2).senderMac := by
  have hBound := (arp_latest_binding_iff (tcpipInit staticStack) (by decide) (by decide +kernel)
    [hostReply 1 1, hostReply 2 2]).mpr ?_
  · exact ⟨hBound 0 _ rfl (by decide +kernel), hBound 1 _ rfl (by decide +kernel)⟩
  · intro n f hAt _
    rcases n with _ | _ | n
    · obtain rfl := Option.some.inj hAt
      exact Or.inl (by decide +kernel)
    · obtain rfl := Option.some.inj hAt
      exact Or.inl (by decide +kernel)
    · cases hAt

theorem changed_address_not_found :
    ¬ ∀ (n : Nat) (f : ArpFrame), [hostReply 1 1, hostReply 1 2][n]? = some f → f.IsReply →
      Bound ((tcpipInit staticStack).afterArp ([hostReply 1 1, hostReply 1 2].take n)).arpCache
        ((tcpipInit staticStack).afterArp ([hostReply 1 1, hostReply 1 2].take (n + 1))).arpCache f.senderIp
        f.senderMac := by
  intro h
  have hLatest := (h 1 (hostReply 1 2) rfl (by decide +kernel)).latest
  exact absurd hLatest (by decide +kernel)

end UnixOS.Net
