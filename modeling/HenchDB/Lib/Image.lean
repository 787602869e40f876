import HenchDB.Lib.Codec

/-!
# Byte images

A block of bytes addressed by position.  `slice` reads a range of it and `patch`
overwrites one; a range is read back as it was written (`slice_patch_self`), a
range beside the written one is unchanged (`slice_patch_of_disjoint`), and a
range around it changes in its middle (`slice_patch_inside`).
-/

namespace Codec

/-- Bytes by their positions. -/
abbrev Image := Nat → UInt8

namespace Image

variable {img img' : Image} {off n o : Nat} {bs : List UInt8}

/-- The `n` bytes from `off` on. -/
def slice (img : Image) (off n : Nat) : List UInt8 := (List.range n).map fun i => img (off + i)

/-- The bytes from `off` on overwritten. -/
def patch (img : Image) (off : Nat) (bs : List UInt8) : Image := fun i =>
  if off ≤ i ∧ i < off + bs.length then bs.getD (i - off) 0 else img i

/-- The little-endian number of `w` bytes at `off`. -/
def number (img : Image) (off w : Nat) : Nat := leValue (slice img off w)

@[simp]
theorem length_slice (img : Image) (off n : Nat) : (slice img off n).length = n := by
  simp [slice]

theorem getElem?_slice (img : Image) (off n i : Nat) :
    (slice img off n)[i]? = if i < n then some (img (off + i)) else none := by
  rw [slice, List.getElem?_map]
  split
  · next hi => rw [List.getElem?_range hi, Option.map_some]
  · next hi => rw [List.getElem?_eq_none (by simpa using hi), Option.map_none]

/-- A range only depends on its own bytes. -/
theorem slice_congr (h : ∀ i, off ≤ i → i < off + n → img i = img' i) :
    slice img off n = slice img' off n := by
  refine List.map_congr_left fun i hi => h _ (Nat.le_add_right ..) ?_
  have := List.mem_range.mp hi
  omega

theorem patch_of_lt {i : Nat} (h : i < o) : patch img o bs i = img i := by
  rw [patch, if_neg (by omega)]

theorem patch_of_ge {i : Nat} (h : o + bs.length ≤ i) : patch img o bs i = img i := by
  rw [patch, if_neg (by omega)]

@[simp]
theorem slice_patch_self (img : Image) (o : Nat) (bs : List UInt8) :
    slice (patch img o bs) o bs.length = bs := by
  refine List.ext_getElem? fun i => ?_
  rw [getElem?_slice]
  split
  · next hi =>
    rw [patch, if_pos (by omega), Nat.add_sub_cancel_left, List.getD_eq_getElem?_getD,
      List.getElem?_eq_getElem hi]
    rfl
  · next hi => rw [List.getElem?_eq_none (by omega)]

theorem slice_patch_of_disjoint (h : off + n ≤ o ∨ o + bs.length ≤ off) :
    slice (patch img o bs) off n = slice img off n := by
  refine slice_congr fun i hlo hhi => ?_
  rcases h with h | h
  · exact patch_of_lt (by omega)
  · exact patch_of_ge (by omega)

theorem slice_patch_inside (hlo : off ≤ o) (hhi : o + bs.length ≤ off + n) :
    slice (patch img o bs) off n =
      (slice img off n).take (o - off) ++ bs ++ (slice img off n).drop (o - off + bs.length) := by
  refine List.ext_getElem? fun i => ?_
  rw [getElem?_slice, List.append_assoc, List.getElem?_append, List.getElem?_append,
    List.length_take, length_slice, Nat.min_eq_left (by omega), List.getElem?_take,
    List.getElem?_drop, getElem?_slice, getElem?_slice]
  by_cases hi : i < n
  · rw [if_pos hi]
    by_cases hbefore : i < o - off
    · rw [if_pos hbefore, if_pos hbefore, if_pos hi, patch_of_lt (by omega)]
    · rw [if_neg hbefore]
      by_cases hin : i - (o - off) < bs.length
      · rw [if_pos hin, patch, if_pos (by omega), List.getD_eq_getElem?_getD,
          show off + i - o = i - (o - off) by omega, List.getElem?_eq_getElem hin]
        rfl
      · rw [if_neg hin, if_pos (by omega), patch_of_ge (by omega)]
        exact congrArg (fun k => some (img k)) (by omega)
  · rw [if_neg hi, if_neg (by omega), if_neg (by omega), if_neg (by omega)]

theorem number_patch_self {w v : Nat} (h : v < 256 ^ w) :
    number (patch img o (leBytes w v)) o w = v := by
  have hslice := slice_patch_self img o (leBytes w v)
  rw [length_leBytes] at hslice
  rw [number, hslice, leValue_leBytes h]

theorem number_patch_of_disjoint {w : Nat} (h : off + w ≤ o ∨ o + bs.length ≤ off) :
    number (patch img o bs) off w = number img off w := by
  rw [number, slice_patch_of_disjoint h, number]

/-- The second of two writes of one range counts. -/
theorem patch_patch {cs : List UInt8} (h : bs.length = cs.length) :
    patch (patch img o bs) o cs = patch img o cs := by
  funext i
  simp only [patch, h]
  split <;> rfl

end Image

end Codec
