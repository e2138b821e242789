import ImageUpload.Bytes.Sparse

/-
Bytes read one at a time.

`byteOf` is total, with zeros past the end, so that a statement about the bytes of an
image needs no bounds.  Overwriting and the sparse representation are described by it,
and `toBytes_of_byteAt` turns a statement about the bytes of a sparse object into an
equation between byte arrays.
-/

namespace ImageUpload

/-- The byte at a place, or zero past the end. -/
def byteOf (b : ByteArray) (i : Nat) : UInt8 :=
  b.data[i]?.getD 0

theorem byteOf_of_lt {b : ByteArray} {i : Nat} (h : i < b.size) : byteOf b i = b[i] := by
  unfold byteOf
  rw [Array.getElem?_eq_getElem h]
  rfl

theorem byteOf_of_le {b : ByteArray} {i : Nat} (h : b.size ≤ i) : byteOf b i = 0 := by
  unfold byteOf
  rw [Array.getElem?_eq_none h]
  rfl

theorem ext_byteOf {a b : ByteArray} (hsize : a.size = b.size)
    (h : ∀ i, i < a.size → byteOf a i = byteOf b i) : a = b := by
  refine ByteArray.ext_getElem hsize fun i ha hb => ?_
  have hi := h i ha
  rwa [byteOf_of_lt ha, byteOf_of_lt hb] at hi

theorem byteOf_append (a b : ByteArray) (i : Nat) :
    byteOf (a ++ b) i = if i < a.size then byteOf a i else byteOf b (i - a.size) := by
  unfold byteOf
  rw [ByteArray.data_append, Array.getElem?_append, ByteArray.size_data]
  split
  next _ => rfl
  next _ => rfl

theorem byteOf_extract (b : ByteArray) (start stop i : Nat) :
    byteOf (b.extract start stop) i = if start + i < stop then byteOf b (start + i) else 0 := by
  have hsize := ByteArray.size_extract (a := b) (b := start) (e := stop)
  by_cases hi : i < (b.extract start stop).size
  · rw [byteOf_of_lt hi, ByteArray.getElem_extract, if_pos (by omega), byteOf_of_lt (by omega)]
  · rw [byteOf_of_le (by omega)]
    split
    next h => exact (byteOf_of_le (by omega)).symm
    next _ => rfl

theorem extract_size (b : ByteArray) (start stop : Nat) :
    b.extract start (start + (b.extract start stop).size) = b.extract start stop := by
  have hsize : (b.extract start stop).size = min stop b.size - start := ByteArray.size_extract
  refine ext_byteOf ?_ fun i hi => ?_
  · rw [ByteArray.size_extract]
    omega
  · rw [ByteArray.size_extract] at hi
    rw [byteOf_extract, byteOf_extract, if_pos (by omega), if_pos (by omega)]

theorem size_zeroBytes (n : Nat) : (zeroBytes n).size = n := Array.size_replicate

theorem byteOf_zeroBytes (n i : Nat) : byteOf (zeroBytes n) i = 0 := by
  by_cases hi : i < n
  · rw [byteOf_of_lt (by rw [size_zeroBytes]; exact hi)]
    exact Array.getElem_replicate _
  · exact byteOf_of_le (by rw [size_zeroBytes]; omega)

/-! ## Overwriting -/

/-- What an overwrite is made of: what lies before, the data, what lies after. -/
theorem overwrite_eq (b : ByteArray) (offset : Nat) (data : ByteArray) :
    overwrite b offset data =
      (b ++ zeroBytes (offset - b.size)).extract 0 offset ++ data ++
        (b ++ zeroBytes (offset - b.size)).extract (offset + data.size)
          (b ++ zeroBytes (offset - b.size)).size := by
  unfold overwrite
  rw [ByteArray.copySlice_eq_append, Nat.zero_add, ByteArray.extract_zero_size,
    ByteArray.size_data, ByteArray.size_data, Nat.sub_zero, Nat.min_self]

theorem size_overwrite (b : ByteArray) (offset : Nat) (data : ByteArray) :
    (overwrite b offset data).size = max b.size (offset + data.size) := by
  rw [overwrite_eq]
  simp only [ByteArray.size_append, ByteArray.size_extract, size_zeroBytes]
  omega

theorem byteOf_overwrite (b : ByteArray) (offset : Nat) (data : ByteArray) (i : Nat) :
    byteOf (overwrite b offset data) i =
      if offset ≤ i ∧ i < offset + data.size then byteOf data (i - offset) else byteOf b i := by
  have hpad : ∀ j, byteOf (b ++ zeroBytes (offset - b.size)) j = byteOf b j := by
    intro j
    rw [byteOf_append]
    split
    next _ => rfl
    next h => rw [byteOf_zeroBytes, byteOf_of_le (by omega)]
  have hfront : ((b ++ zeroBytes (offset - b.size)).extract 0 offset).size = offset := by
    simp only [ByteArray.size_extract, ByteArray.size_append, size_zeroBytes]
    omega
  rw [overwrite_eq, byteOf_append, byteOf_append, ByteArray.size_append, hfront]
  by_cases hbefore : i < offset
  · rw [if_pos (by omega), if_pos hbefore, byteOf_extract, Nat.zero_add, if_pos hbefore, hpad,
      if_neg (by omega)]
  · by_cases hin : i < offset + data.size
    · rw [if_pos hin, if_neg hbefore, if_pos ⟨by omega, hin⟩]
    · rw [if_neg hin, if_neg (by omega), byteOf_extract]
      have hplace : offset + data.size + (i - (offset + data.size)) = i := by omega
      rw [hplace, hpad]
      split
      next _ => rfl
      next h =>
        refine (byteOf_of_le ?_).symm
        rw [ByteArray.size_append, size_zeroBytes] at h
        omega

/-! ## Sparse bytes -/

namespace SparseBytes

theorem byteAt_write (s : SparseBytes) (offset : Nat) (data : ByteArray) (i : Nat) :
    (s.write offset data).byteAt i =
      if offset ≤ i ∧ i < offset + data.size then byteOf data (i - offset) else s.byteAt i := by
  unfold write
  split
  next h => rw [if_neg (by omega)]
  next _ =>
    unfold byteAt
    rw [List.findSome?_cons]
    by_cases hlow : offset ≤ i
    · by_cases hhigh : i < offset + data.size
      · have hlt : i - offset < data.data.size := by
          rw [ByteArray.size_data]
          omega
        have hheld : heldBy (offset, data) i = some data.data[i - offset] := by
          simp only [heldBy, if_pos hlow, Array.getElem?_eq_getElem hlt]
        rw [hheld, if_pos ⟨hlow, hhigh⟩]
        unfold byteOf
        rw [Array.getElem?_eq_getElem hlt]
      · have hheld : heldBy (offset, data) i = none := by
          simp only [heldBy, if_pos hlow]
          exact Array.getElem?_eq_none (by rw [ByteArray.size_data]; omega)
        rw [hheld, if_neg (by omega)]
    · have hheld : heldBy (offset, data) i = none := by
        simp only [heldBy, if_neg hlow]
      rw [hheld, if_neg (by omega)]

theorem size_write_of_le {s : SparseBytes} {offset : Nat} {data : ByteArray}
    (h : offset + data.size ≤ s.size) : (s.write offset data).size = s.size := by
  unfold write
  split
  next _ => rfl
  next _ => exact Nat.max_eq_left h

/-- The pieces overwrite one another in the order in which they were written. -/
theorem toBytes_pieces {size : Nat} (pieces : List (Nat × ByteArray))
    (hin : ∀ p ∈ pieces, p.1 + p.2.size ≤ size) :
    (pieces.foldr (fun p b => overwrite b p.1 p.2) (zeroBytes size)).size = size ∧
      ∀ i, byteOf (pieces.foldr (fun p b => overwrite b p.1 p.2) (zeroBytes size)) i =
        (pieces.findSome? (heldBy · i)).getD 0 := by
  induction pieces with
  | nil => exact ⟨size_zeroBytes size, byteOf_zeroBytes size⟩
  | cons p rest ih =>
    obtain ⟨hsize, hbyte⟩ := ih fun q hq => hin q (List.mem_cons_of_mem p hq)
    have hp := hin p List.mem_cons_self
    refine ⟨?_, fun i => ?_⟩
    · rw [List.foldr_cons, size_overwrite, hsize]
      exact Nat.max_eq_left hp
    · rw [List.foldr_cons, byteOf_overwrite, hbyte, List.findSome?_cons]
      unfold heldBy byteOf
      by_cases hlow : p.1 ≤ i
      · by_cases hhigh : i < p.1 + p.2.size
        · have hlt : i - p.1 < p.2.data.size := by
            rw [ByteArray.size_data]
            omega
          rw [if_pos ⟨hlow, hhigh⟩, if_pos hlow, Array.getElem?_eq_getElem hlt]
        · rw [if_neg (by omega), if_pos hlow,
            Array.getElem?_eq_none (by rw [ByteArray.size_data]; omega)]
      · rw [if_neg (by omega), if_neg hlow]

theorem size_toBytes (s : SparseBytes) : s.toBytes.size = s.size :=
  (toBytes_pieces s.pieces s.inside).1

theorem byteOf_toBytes (s : SparseBytes) (i : Nat) : byteOf s.toBytes i = s.byteAt i :=
  (toBytes_pieces s.pieces s.inside).2 i

theorem toBytes_of_byteAt {s : SparseBytes} {b : ByteArray} (hsize : s.size = b.size)
    (h : ∀ i, i < b.size → s.byteAt i = byteOf b i) : s.toBytes = b := by
  refine ext_byteOf (s.size_toBytes.trans hsize) fun i hi => ?_
  rw [byteOf_toBytes]
  rw [size_toBytes, hsize] at hi
  exact h i hi

theorem toBytes_ofBytes (b : ByteArray) : (ofBytes b).toBytes = b := by
  refine toBytes_of_byteAt rfl fun i hi => ?_
  have hlt : i < b.data.size := by
    rw [ByteArray.size_data]
    exact hi
  have hheld : heldBy (0, b) i = some b.data[i] := by
    simp only [heldBy, if_pos (Nat.zero_le i), Nat.sub_zero, Array.getElem?_eq_getElem hlt]
  unfold byteAt byteOf ofBytes
  rw [List.findSome?_cons, hheld, Array.getElem?_eq_getElem hlt]

end SparseBytes
end ImageUpload
