import Mathlib.Data.Nat.Bitwise
import Mathlib.Tactic.Ring

/-! # Byte-addressed memory with little-endian words

A memory is a total map from addresses to bytes. Words of any width are read and written least
significant byte first. Every reasoning step below is one of two kinds: a word read back where it
was written, or a read whose bytes a write did not touch.
-/

namespace ByteMemory

abbrev Mem := Nat → UInt8

def load (m : Mem) : Nat → Nat → Nat
  | 0, _ => 0
  | w + 1, a => (m a).toNat + 256 * load m w (a + 1)

def store (m : Mem) (a w v : Nat) : Mem := fun x =>
  if a ≤ x ∧ x < a + w then UInt8.ofNat (v / 256 ^ (x - a)) else m x

def fill (m : Mem) (a n : Nat) (f : Nat → UInt8) : Mem := fun x =>
  if a ≤ x ∧ x < a + n then f (x - a) else m x

def copy (m : Mem) (dst src : Nat) : Nat → Mem
  | 0 => m
  | n + 1 => fun x =>
    if x = dst + n then copy m dst src n (src + n) else copy m dst src n x

theorem store_eq_fill (m : Mem) (a w v : Nat) :
    store m a w v = fill m a w (fun i => UInt8.ofNat (v / 256 ^ i)) := rfl

theorem fill_inside {m : Mem} {a n : Nat} {f : Nat → UInt8} {i : Nat} (h : i < n) :
    fill m a n f (a + i) = f i := by
  rw [fill, if_pos ⟨Nat.le_add_right a i, by omega⟩, Nat.add_sub_cancel_left]

theorem fill_congr {m : Mem} {a n : Nat} {f f' : Nat → UInt8} (h : ∀ i < n, f i = f' i) :
    fill m a n f = fill m a n f' := by
  funext x
  unfold fill
  split
  · exact h _ (by omega)
  · rfl

theorem fill_outside {m : Mem} {a n : Nat} {f : Nat → UInt8} {x : Nat}
    (h : x < a ∨ a + n ≤ x) : fill m a n f x = m x := by
  rw [fill, if_neg (by omega)]

theorem copy_outside {m : Mem} {dst src n x : Nat} (h : x < dst ∨ dst + n ≤ x) :
    copy m dst src n x = m x := by
  induction n with
  | zero => rfl
  | succ n ih =>
    have hStep : copy m dst src (n + 1) x = copy m dst src n x := if_neg (by omega)
    rw [hStep]
    exact ih (by omega)

theorem copy_inside {m : Mem} {dst src n i : Nat} (hDown : dst ≤ src) (h : i < n) :
    copy m dst src n (dst + i) = m (src + i) := by
  induction n with
  | zero => omega
  | succ n ih =>
    unfold copy
    split
    case isTrue hLast =>
      have hi : i = n := by omega
      rw [hi]
      exact copy_outside (by omega)
    case isFalse hEarlier => exact ih (by omega)

theorem copy_apart {m : Mem} {dst src n i : Nat} (hApart : src + n ≤ dst) (h : i < n) :
    copy m dst src n (dst + i) = m (src + i) := by
  induction n with
  | zero => omega
  | succ n ih =>
    unfold copy
    split
    case isTrue hLast =>
      have hi : i = n := by omega
      rw [hi]
      exact copy_outside (by omega)
    case isFalse hEarlier => exact ih (by omega) (by omega)

theorem load_congr {m m' : Mem} {w a : Nat} (h : ∀ x, a ≤ x → x < a + w → m x = m' x) :
    load m w a = load m' w a := by
  induction w generalizing a with
  | zero => rfl
  | succ w ih =>
    rw [load, load, h a (Nat.le_refl a) (by omega), ih]
    intro x hax hxw
    exact h x (by omega) (by omega)

theorem load_eq_iff {m m' : Mem} {w a : Nat} :
    load m w a = load m' w a ↔ ∀ i < w, m (a + i) = m' (a + i) := by
  constructor
  · intro hLoad
    induction w generalizing a with
    | zero => exact fun i hi => absurd hi (by omega)
    | succ w ih =>
      rw [load, load] at hLoad
      have hByte := (m a).toNat_lt
      have hByte' := (m' a).toNat_lt
      have hRest : load m w (a + 1) = load m' w (a + 1) := by omega
      intro i hi
      cases i with
      | zero =>
        apply UInt8.toNat_inj.mp
        rw [Nat.add_zero]
        omega
      | succ i =>
        have hTail := ih hRest i (by omega)
        rwa [Nat.add_assoc, Nat.add_comm 1 i] at hTail
  · intro hBytes
    apply load_congr
    intro x hLow hHigh
    have hByte := hBytes (x - a) (by omega)
    rwa [Nat.add_sub_cancel' hLow] at hByte

theorem load_lt (m : Mem) (w a : Nat) : load m w a < 256 ^ w := by
  induction w generalizing a with
  | zero => simp [load]
  | succ w ih =>
    have hByte : (m a).toNat < 256 := (m a).toNat_lt
    have hRest := ih (a + 1)
    rw [load, pow_succ]
    omega

theorem load_zero (w a : Nat) : load (fun _ => 0) w a = 0 := by
  induction w generalizing a with
  | zero => rfl
  | succ w ih => simp [load, ih]

theorem load_shift (m : Mem) (a w b : Nat) : load (fun i => m (a + i)) w b = load m w (a + b) := by
  induction w generalizing b with
  | zero => rfl
  | succ w ih => simp only [load, ih, Nat.add_assoc]

theorem load_of_bytes {m : Mem} {w a v : Nat}
    (h : ∀ i < w, m (a + i) = UInt8.ofNat (v / 256 ^ i)) : load m w a = v % 256 ^ w := by
  induction w generalizing a v with
  | zero => simp [load, Nat.mod_one]
  | succ w ih =>
    have hHead : m a = UInt8.ofNat v := by simpa using h 0 (by omega)
    have hTail : load m w (a + 1) = v / 256 % 256 ^ w := by
      apply ih
      intro i hi
      have hByte := h (i + 1) (by omega)
      rw [show a + (i + 1) = a + 1 + i by omega] at hByte
      rw [hByte, Nat.div_div_eq_div_mul, pow_succ']
    have hSplit : v % 256 ^ (w + 1) = v % 256 + 256 * (v / 256 % 256 ^ w) := by
      rw [pow_succ', Nat.mod_mul]
    rw [load, hHead, hTail, hSplit, UInt8.toNat_ofNat']

theorem load_fill_disjoint {m : Mem} {a n w b : Nat} {f : Nat → UInt8}
    (h : b + w ≤ a ∨ a + n ≤ b) : load (fill m a n f) w b = load m w b := by
  apply load_congr
  intro x hbx hxw
  exact fill_outside (by omega)

theorem load_fill_inside {m : Mem} {a n w i : Nat} {f : Nat → UInt8} (h : i + w ≤ n) :
    load (fill m a n f) w (a + i) = load f w i := by
  induction w generalizing i with
  | zero => rfl
  | succ w ih =>
    rw [load, load, fill_inside (by omega), Nat.add_assoc, ih (by omega)]

theorem load_store_disjoint {m : Mem} {a n w b v : Nat} (h : b + w ≤ a ∨ a + n ≤ b) :
    load (store m a n v) w b = load m w b := by
  rw [store_eq_fill]
  exact load_fill_disjoint h

theorem load_store_same (m : Mem) (a w v : Nat) : load (store m a w v) w a = v % 256 ^ w := by
  apply load_of_bytes
  intro i hi
  rw [store_eq_fill, fill_inside hi]

theorem load_store_same_of_lt {m : Mem} {a w v : Nat} (h : v < 256 ^ w) :
    load (store m a w v) w a = v := by
  rw [load_store_same, Nat.mod_eq_of_lt h]

end ByteMemory
