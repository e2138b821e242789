namespace ImageUpload

/-- Bytes as lowercase hexadecimal digits, two to a byte. -/
def hexText (b : ByteArray) : String :=
  String.ofList (b.data.toList.flatMap fun x =>
    [Nat.digitChar (x.toNat / 16), Nat.digitChar (x.toNat % 16)])

end ImageUpload
