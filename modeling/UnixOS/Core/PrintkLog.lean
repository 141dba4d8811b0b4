import UnixOS.Core.Printk

/-! # The kernel log keeps the last bytes

The ring of `printk_log_append` holds what was appended last, in order, and `printk_log_read` reads any part
of it.
-/

namespace UnixOS.Printk

open RingBuffer

/-- The last bytes of what has been appended, as many as the ring has cells. -/
def lastBytes (total : List Char) : List Char := total.drop (total.length - printkLogBufferSize)

structure Log.Keeps (log : Log) (total : List Char) : Prop where
  start_lt : log.printkLogStart < printkLogBufferSize
  count_eq : log.printkLogCount = min total.length printkLogBufferSize
  contents_eq :
    contents printkLogBufferSize log.printkLogBuffer log.printkLogStart log.printkLogCount = lastBytes total

theorem keeps_logInit : logInit.Keeps [] := ⟨by decide, rfl, rfl⟩

variable {log : Log} {total : List Char}

theorem Log.Keeps.grow (h : log.Keeps total) (hRoom : log.printkLogCount < printkLogBufferSize) (c : Char) :
    (log.append c).Keeps (total ++ [c]) := by
  have hCount := h.count_eq
  have hShort : total.length < printkLogBufferSize := by omega
  have hAll : lastBytes (total ++ [c]) = total ++ [c] := by
    rw [lastBytes, List.length_append, List.length_singleton, Nat.sub_eq_zero_of_le hShort, List.drop_zero]
  have hOld : lastBytes total = total := by
    rw [lastBytes, Nat.sub_eq_zero_of_le (Nat.le_of_lt hShort), List.drop_zero]
  rw [Log.append, if_pos hRoom]
  constructor
  · exact h.start_lt
  · simp only [List.length_append, List.length_singleton]
    omega
  · simp only
    rw [contents_push hRoom, h.contents_eq, hOld, hAll]

theorem Log.Keeps.turn (h : log.Keeps total) (hFull : ¬log.printkLogCount < printkLogBufferSize) (c : Char) :
    (log.append c).Keeps (total ++ [c]) := by
  have hCount := h.count_eq
  have hLong : printkLogBufferSize ≤ total.length := by omega
  have hSize : log.printkLogCount = printkLogBufferSize := by omega
  have hContents := h.contents_eq
  have hNext : lastBytes (total ++ [c]) = (lastBytes total).tail ++ [c] := by
    have hDrop : total.length + 1 - printkLogBufferSize = total.length - printkLogBufferSize + 1 := by omega
    have hLe : total.length - printkLogBufferSize + 1 ≤ total.length := by
      have hPos : 0 < printkLogBufferSize := by decide
      omega
    rw [lastBytes, lastBytes, List.tail_drop, List.length_append, List.length_singleton, hDrop,
      List.drop_append_of_le_length hLe]
  rw [Log.append, if_neg hFull]
  constructor
  · exact Nat.mod_lt _ (by decide)
  · simp only [List.length_append, List.length_singleton]
    omega
  · simp only
    rw [hSize] at hContents ⊢
    rw [contents_overwrite h.start_lt, hContents, hNext]

theorem Log.Keeps.append (h : log.Keeps total) (c : Char) : (log.append c).Keeps (total ++ [c]) := by
  by_cases hRoom : log.printkLogCount < printkLogBufferSize
  · exact h.grow hRoom c
  · exact h.turn hRoom c

theorem Log.Keeps.printkLogAppend (h : log.Keeps total) (buf : List Char) :
    (printkLogAppend log buf).Keeps (total ++ buf) := by
  induction buf generalizing log total with
  | nil =>
    rw [List.append_nil]
    exact h
  | cons c buf ih =>
    have hRest := ih (h.append c)
    rw [List.append_assoc] at hRest
    exact hRest

theorem Log.Keeps.messages (h : log.Keeps total) (messages : List (List Char)) :
    (messages.foldl Printk.printkLogAppend log).Keeps (total ++ messages.flatten) := by
  induction messages generalizing log total with
  | nil =>
    rw [List.flatten_nil, List.append_nil]
    exact h
  | cons buf messages ih =>
    have hRest := ih (h.printkLogAppend buf)
    rw [List.append_assoc, ← List.flatten_cons] at hRest
    exact hRest

theorem printkLogRead_eq (log : Log) (offset size : Nat) :
    printkLogRead log offset size =
      ((contents printkLogBufferSize log.printkLogBuffer log.printkLogStart log.printkLogCount).drop offset).take
        size := by
  rw [printkLogRead, contents, ← List.map_drop, ← List.map_take]
  split
  case isTrue hNone =>
    rcases hNone with rfl | hBehind
    · simp
    · rw [List.drop_eq_nil_of_le (by simpa using hBehind)]
      simp
  case isFalse hSome =>
    apply List.ext_getElem
    · simp only [List.length_map, List.length_range, List.length_take, List.length_drop]
      split <;> omega
    · intro i hi hi'
      simp only [List.getElem_map, List.getElem_take, List.getElem_drop, List.getElem_range, Nat.add_assoc]

/-- After any messages the log has the last 65536 of their bytes, or all of them, and every part of them can be
read. -/
theorem printk_log_last_bytes (messages : List (List Char)) :
    printkLogSize (messages.foldl printkLogAppend logInit) = min messages.flatten.length 65536 ∧
      ∀ offset size, printkLogRead (messages.foldl printkLogAppend logInit) offset size =
        ((lastBytes messages.flatten).drop offset).take size := by
  have hKeeps := keeps_logInit.messages messages
  rw [List.nil_append] at hKeeps
  refine ⟨hKeeps.count_eq, ?_⟩
  intro offset size
  rw [printkLogRead_eq, hKeeps.contents_eq]

end UnixOS.Printk
