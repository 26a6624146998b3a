import Mathlib

/-!
# Stacked regions of one buffer

Arrays of growing length live in one buffer, one above the other, and only the topmost is worked on.
Every other place holds the filler.
-/

namespace Arena

open List

variable {α : Type*}

def read (l : List α) (start size : ℕ) : List α := (l.drop start).take size

/-- `data` written over the elements from `start` on. -/
def write (l : List α) (start : ℕ) (data : List α) : List α :=
  l.take start ++ data ++ l.drop (start + data.length)

/-- `l` lengthened with the filler to `size` elements. -/
def grow (filler : α) (l : List α) (size : ℕ) : List α :=
  l ++ List.replicate (size - l.length) filler

theorem getElem?_read (l : List α) (start size i : ℕ) :
    (read l start size)[i]? = if i < size then l[start + i]? else none := by
  simp [read, getElem?_take]

variable {start : ℕ} {data : List α}

theorem length_read {l : List α} {size : ℕ} (inside : start + size ≤ l.length) :
    (read l start size).length = size := by
  simp only [read, length_take, length_drop]
  omega

theorem length_write {l : List α} (inside : start + data.length ≤ l.length) :
    (write l start data).length = l.length := by
  simp only [write, length_append, length_take, length_drop]
  omega

theorem getElem?_write {l : List α} (inside : start + data.length ≤ l.length) (i : ℕ) :
    (write l start data)[i]? =
      if start ≤ i ∧ i < start + data.length then data[i - start]? else l[i]? := by
  have head : (l.take start).length = start := by
    rw [length_take]
    omega
  rw [write, append_assoc]
  rcases lt_or_ge i start with below | above
  · rw [getElem?_append_left (by omega), getElem?_take, if_pos below, if_neg (by omega)]
  rw [getElem?_append_right (by omega), head]
  by_cases within : i < start + data.length
  · rw [getElem?_append_left (by omega), if_pos ⟨above, within⟩]
  · rw [getElem?_append_right (by omega), if_neg (by omega), getElem?_drop]
    congr 1
    omega

theorem write_nil (l : List α) (start : ℕ) : write l start [] = l := by
  simp [write]

theorem write_append {l : List α} {tail : List α}
    (inside : start + (data ++ tail).length ≤ l.length) :
    write (write l start data) (start + data.length) tail = write l start (data ++ tail) := by
  rw [length_append] at inside
  have first : start + data.length ≤ l.length := by omega
  apply ext_getElem?
  intro i
  rw [getElem?_write (by rw [length_write first]; omega), getElem?_write first,
    getElem?_write (by rw [length_append]; omega), length_append]
  split_ifs with second whole below <;> try omega
  · rw [getElem?_append_right (by omega)]
    congr 1
    omega
  · rw [getElem?_append_left (by omega)]
  · rfl

@[simp] theorem length_grow (filler : α) (l : List α) (size : ℕ) :
    (grow filler l size).length = max l.length size := by
  simp only [grow, length_append, length_replicate]
  omega

theorem getElem?_grow (filler : α) (l : List α) (size i : ℕ) :
    (grow filler l size)[i]? =
      if i < l.length then l[i]? else if i < size then some filler else none := by
  rw [grow]
  by_cases old : i < l.length
  · rw [getElem?_append_left old, if_pos old]
  rw [getElem?_append_right (by omega), getElem?_replicate, if_neg old]
  split_ifs <;> first | rfl | omega

theorem grow_of_le {filler : α} {l : List α} {size : ℕ} (small : size ≤ l.length) :
    grow filler l size = l := by
  simp [grow, Nat.sub_eq_zero_of_le small]

/-- The buffer below `top` holds the given arrays, the topmost first, and the filler elsewhere. -/
def Layout (filler : α) (buffer : List α) : ℕ → List (ℕ × List α) → Prop
  | top, [] => ∀ i < top, buffer[i]? = some filler
  | top, (base, own) :: rest =>
    base + own.length ≤ top ∧
    (∀ i < own.length, buffer[base + i]? = own[i]?) ∧
    (∀ i, base + own.length ≤ i → i < top → buffer[i]? = some filler) ∧
    Layout filler buffer base rest

namespace Layout

variable {filler : α} {buffer : List α} {top base : ℕ} {own : List α}
  {rest regions : List (ℕ × List α)}

theorem congr {buffer' : List α} (same : ∀ i < top, buffer'[i]? = buffer[i]?)
    (layout : Layout filler buffer top regions) : Layout filler buffer' top regions := by
  induction regions generalizing top with
  | nil => exact fun i below => (same i below).trans (layout i below)
  | cons region rest ih =>
    obtain ⟨base, own⟩ := region
    obtain ⟨fits, owned, clear, lower⟩ := layout
    refine ⟨fits, fun i inside => ?_, fun i above below => ?_, ih (fun i below => ?_) lower⟩
    · rw [same _ (by omega), owned i inside]
    · rw [same _ below, clear i above below]
    · exact same i (by omega)

theorem raise {top' : ℕ} (higher : top ≤ top')
    (clear : ∀ i, top ≤ i → i < top' → buffer[i]? = some filler)
    (layout : Layout filler buffer top regions) : Layout filler buffer top' regions := by
  cases regions with
  | nil =>
    intro i below
    rcases lt_or_ge i top with inside | above
    · exact layout i inside
    · exact clear i above below
  | cons region rest =>
    obtain ⟨base, own⟩ := region
    obtain ⟨fits, owned, blank, lower⟩ := layout
    refine ⟨fits.trans higher, owned, fun i above below => ?_, lower⟩
    rcases lt_or_ge i top with inside | outside
    · exact blank i above inside
    · exact clear i outside below

variable {start size : ℕ}

variable (layout : Layout filler buffer top ((base, own) :: rest))

include layout

theorem read_eq (inside : start + size ≤ own.length) :
    read buffer (base + start) size = read own start size := by
  obtain ⟨-, owned, -, -⟩ := layout
  apply ext_getElem?
  intro i
  rw [getElem?_read, getElem?_read]
  split_ifs with within
  · rw [Nat.add_assoc, owned _ (by omega)]
  · rfl

theorem write {data : List α} (held : top ≤ buffer.length)
    (inside : start + data.length ≤ own.length) :
    Layout filler (write buffer (base + start) data) top
      ((base, Arena.write own start data) :: rest) := by
  obtain ⟨fits, owned, clear, lower⟩ := layout
  have room : base + start + data.length ≤ buffer.length := by omega
  refine ⟨by rw [length_write inside]; exact fits, fun i within => ?_, fun i above below => ?_,
    lower.congr fun i below => ?_⟩
  · rw [length_write inside] at within
    rw [getElem?_write room, getElem?_write inside]
    by_cases covered : start ≤ i ∧ i < start + data.length
    · rw [if_pos (by omega), if_pos covered]
      congr 1
      omega
    · rw [if_neg (by omega), if_neg covered, owned i within]
  · rw [length_write inside] at above
    rw [getElem?_write room, if_neg (by omega), clear i above below]
  · rw [getElem?_write room, if_neg (by omega)]

theorem grow_own (room : base + size ≤ top) :
    Layout filler buffer top ((base, grow filler own size) :: rest) := by
  obtain ⟨fits, owned, clear, lower⟩ := layout
  refine ⟨by rw [length_grow]; omega, fun i inside => ?_, fun i above below => ?_, lower⟩
  · rw [length_grow] at inside
    rw [getElem?_grow]
    split_ifs with old new
    · exact owned i old
    · exact clear _ (by omega) (by omega)
    · omega
  · rw [length_grow] at above
    exact clear i (by omega) below

omit layout

theorem grow_buffer (layout : Layout filler buffer buffer.length regions) (size : ℕ) :
    Layout filler (grow filler buffer size) (grow filler buffer size).length regions := by
  have kept : Layout filler (grow filler buffer size) buffer.length regions :=
    layout.congr fun i below => by rw [getElem?_grow, if_pos below]
  refine kept.raise (by simp) fun i above below => ?_
  rw [length_grow] at below
  rw [getElem?_grow, if_neg (by omega), if_pos (by omega)]

theorem push (layout : Layout filler buffer top regions) :
    Layout filler buffer top ((top, []) :: regions) :=
  ⟨by simp, by simp, fun i above below => by simp at above; omega, layout⟩

theorem pop_fill (layout : Layout filler buffer top ((base, own) :: rest))
    (held : top ≤ buffer.length) :
    Layout filler (Arena.write buffer base (List.replicate own.length filler)) top rest := by
  obtain ⟨fits, owned, clear, lower⟩ := layout
  have room : base + (List.replicate own.length filler).length ≤ buffer.length := by
    rw [length_replicate]
    omega
  have below : Layout filler (Arena.write buffer base (List.replicate own.length filler)) base rest :=
    lower.congr fun i under => by rw [getElem?_write room, if_neg (by omega)]
  refine below.raise (by omega) fun i above under => ?_
  rw [getElem?_write room, length_replicate]
  split_ifs with covered
  · rw [getElem?_replicate, if_pos (by omega)]
  · exact clear i (by omega) under

theorem pop_take (layout : Layout filler buffer top ((base, own) :: rest)) :
    Layout filler (buffer.take base) base rest :=
  layout.2.2.2.congr fun i below => by rw [getElem?_take, if_pos below]

end Layout

end Arena
