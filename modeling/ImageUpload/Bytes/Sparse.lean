import ImageUpload.Bytes.Overwrite

/-!
Bytes of which most are zeros.  Only the pieces that were written are kept, so that
the size costs nothing.
-/

namespace ImageUpload

structure SparseBytes where
  size : Nat
  /-- The pieces that were written with their places, the last one first. -/
  pieces : List (Nat × ByteArray)
  inside : ∀ p ∈ pieces, p.1 + p.2.size ≤ size

namespace SparseBytes

def zeros (size : Nat) : SparseBytes :=
  ⟨size, [], by simp⟩

def empty : SparseBytes :=
  zeros 0

def ofBytes (b : ByteArray) : SparseBytes :=
  ⟨b.size, [(0, b)], by simp⟩

def heldBy (p : Nat × ByteArray) (i : Nat) : Option UInt8 :=
  if p.1 ≤ i then p.2.data[i - p.1]? else none

/-- The byte at a place, which is that of the last piece to cover it. -/
def byteAt (s : SparseBytes) (i : Nat) : UInt8 :=
  (s.pieces.findSome? (heldBy · i)).getD 0

/-- Put data at an offset.  The size grows if the data reaches past the end. -/
def write (s : SparseBytes) (offset : Nat) (data : ByteArray) : SparseBytes :=
  if data.size = 0 then s
  else
    ⟨max s.size (offset + data.size), (offset, data) :: s.pieces, by
      intro p hp
      rcases List.mem_cons.mp hp with rfl | hp
      · exact Nat.le_max_right _ _
      · exact Nat.le_trans (s.inside p hp) (Nat.le_max_left _ _)⟩

/-- Cut the bytes off at a size, or fill them up with zeros. -/
def resize (s : SparseBytes) (n : Nat) : SparseBytes :=
  ⟨n, (s.pieces.filter fun p => decide (p.1 ≤ n)).map fun p => (p.1, p.2.extract 0 (n - p.1)), by
    intro p hp
    obtain ⟨q, hq, rfl⟩ := List.mem_map.mp hp
    have hle := of_decide_eq_true (List.mem_filter.mp hq).2
    simp only [ByteArray.size_extract]
    omega⟩

def toBytes (s : SparseBytes) : ByteArray :=
  s.pieces.foldr (fun p b => overwrite b p.1 p.2) (zeroBytes s.size)

end SparseBytes
end ImageUpload
