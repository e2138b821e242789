namespace ImageUpload

def zeroBytes (n : Nat) : ByteArray :=
  ⟨Array.replicate n 0⟩

/-- The bytes with those from `offset` on replaced by `data`.  What `data` does not
reach stays, and a gap before `offset` is filled with zeros. -/
def overwrite (b : ByteArray) (offset : Nat) (data : ByteArray) : ByteArray :=
  data.copySlice 0 (b ++ zeroBytes (offset - b.size)) offset data.size

end ImageUpload
