import ImageUpload.Proofs.Bytes
import ImageUpload.Proofs.RangeSet.Insert
import ImageUpload.Store.Memory

/-
The store in memory.

A write either changes nothing or puts all of its bytes and marks its range as written,
`write_cases`.  A store that is a part of an image, `PartOf`, stays one under every write
of bytes of that image, and the whole of its listing is its written set.
-/

namespace ImageUpload
namespace MemoryStore

/-! ## Writes -/

/-- A write is refused, or it fits the object and is done. -/
theorem write_cases {m m' : MemoryStore} {range : ByteRange} {data : ByteArray}
    {result : Except WriteFault Unit} (h : m.write range data = (result, m')) :
    (m' = m ∧ result ≠ .ok ()) ∨
      ∃ o, m.object = some o ∧ range.last < o.data.size ∧ data.size = range.length ∧
        result = .ok () ∧
        m' = { m with object := some { o with
          data := o.data.write range.first data, written := o.written.insert range } } := by
  unfold write at h
  split at h
  next _ =>
    injection h with hr hm
    exact .inl ⟨hm.symm, hr ▸ nofun⟩
  next o ho =>
    split at h
    next e _ =>
      injection h with hr hm
      exact .inl ⟨hm.symm, hr ▸ nofun⟩
    next hnone =>
      injection h with hr hm
      obtain ⟨hinside, hsize⟩ := PageStore.fits_of_refusal? hnone
      exact .inr ⟨o, ho, hinside, hsize, hr.symm, hm.symm⟩

/-- A write that fits the object is done, and the object keeps its size. -/
theorem write_fits {m : MemoryStore} {o : MemoryObject} {range : ByteRange} {data : ByteArray}
    (ho : m.object = some o) (hfits : PageStore.refusal? m.page o.data.size range data = none) :
    ∃ m' o', m.write range data = (.ok (), m') ∧ m'.page = m.page ∧ m'.object = some o' ∧
      o'.data.size = o.data.size := by
  have hwrite : ∃ m', m.write range data = (.ok (), m') := by
    unfold write
    rw [ho]
    simp only [hfits]
    exact ⟨_, rfl⟩
  obtain ⟨m', hm'⟩ := hwrite
  rcases write_cases hm' with ⟨-, hne⟩ | ⟨o', ho', hinside, hsize, -, rfl⟩
  · exact absurd rfl hne
  · rw [ho] at ho'
    injection ho' with ho'
    subst ho'
    have hend := range.first_add_length
    exact ⟨_, _, hm', rfl, rfl, SparseBytes.size_write_of_le (by omega)⟩

/-- The object of the store, if it has one, has the size of the image, and each of its
bytes is zero or that of the image.  What is written is right, and an object with a digest
is right everywhere and has this digest. -/
structure PartOf (m : MemoryStore) (image : ByteArray) (hash : String) : Prop where
  size : ∀ o, m.object = some o → o.data.size = image.size
  bytes : ∀ o, m.object = some o → ∀ i, o.data.byteAt i = 0 ∨ o.data.byteAt i = byteOf image i
  canonical : m.written.Canonical
  written : ∀ o, m.object = some o → ∀ i, o.written.Has i → o.data.byteAt i = byteOf image i
  hash : ∀ o, m.object = some o → ∀ h, o.contentHash = some h →
    h = hash ∧ ∀ i, o.data.byteAt i = byteOf image i

theorem partOf_of_none {m : MemoryStore} (h : m.object = none) (image : ByteArray) (hash : String) :
    m.PartOf image hash := by
  have hno : ∀ o, m.object ≠ some o := fun o ho => nomatch h.symm.trans ho
  refine ⟨fun o ho => absurd ho (hno o), fun o ho => absurd ho (hno o), ?_,
    fun o ho => absurd ho (hno o), fun o ho => absurd ho (hno o)⟩
  unfold MemoryStore.written
  rw [h]
  exact RangeSet.canonical_empty

theorem written_eq {m : MemoryStore} {o : MemoryObject} (h : m.object = some o) :
    m.written = o.written := by
  unfold MemoryStore.written
  rw [h]
  rfl

theorem partOf_zeros {m : MemoryStore} {image : ByteArray} {hash : String} {metadata : MetadataMap}
    (h : m.object = some ⟨.zeros image.size, metadata, none, .empty⟩) : m.PartOf image hash := by
  have heq : ∀ o, m.object = some o → o = ⟨.zeros image.size, metadata, none, .empty⟩ := by
    intro o ho
    rw [h] at ho
    injection ho with ho
    exact ho.symm
  refine ⟨fun o ho => ?_, fun o ho i => ?_, ?_, fun o ho i hi => ?_, fun o ho d hd => ?_⟩
  · rw [heq o ho]
    rfl
  · rw [heq o ho]
    exact .inl rfl
  · rw [written_eq h]
    exact RangeSet.canonical_empty
  · rw [heq o ho] at hi
    exact absurd hi (RangeSet.not_has_empty i)
  · rw [heq o ho] at hd
    exact nomatch hd

/-- What a write of bytes of the image does to a part of it. -/
theorem PartOf.write {m m' : MemoryStore} {image : ByteArray} {hash : String} {range : ByteRange}
    {data : ByteArray} {result : Except WriteFault Unit} (h : m.PartOf image hash)
    (hdata : ∀ i, range.Has i → byteOf data (i - range.first) = byteOf image i)
    (hw : m.write range data = (result, m')) :
    m'.PartOf image hash ∧ (∀ i, m.written.Has i → m'.written.Has i) ∧
      (result = .ok () → ∀ i, range.Has i → m'.written.Has i) := by
  rcases write_cases hw with ⟨rfl, hne⟩ | ⟨o, ho, hinside, hsize, -, rfl⟩
  · exact ⟨h, fun _ hi => hi, fun hok => absurd hok hne⟩
  · have hend := range.first_add_length
    have hbyte : ∀ i, (o.data.write range.first data).byteAt i =
        if range.Has i then byteOf image i else o.data.byteAt i := by
      intro i
      rw [SparseBytes.byteAt_write]
      by_cases hi : range.Has i
      · have hfirst := hi.1
        have hlast := hi.2
        rw [if_pos hi, if_pos ⟨hfirst, by omega⟩]
        exact hdata i hi
      · rw [if_neg hi, if_neg fun hin => hi ⟨hin.1, by omega⟩]
    have hmem : ∀ i, (o.written.insert range).Has i ↔ m.written.Has i ∨ range.Has i := by
      intro i
      rw [written_eq ho]
      exact RangeSet.has_insert
    refine ⟨⟨?_, ?_, ?_, ?_, ?_⟩, fun i hi => (hmem i).mpr (.inl hi),
      fun _ i hi => (hmem i).mpr (.inr hi)⟩
    · rintro _ ⟨⟩
      rw [← h.size o ho]
      exact SparseBytes.size_write_of_le (by omega)
    · rintro _ ⟨⟩ i
      rw [hbyte i]
      split
      next _ => exact .inr rfl
      next _ => exact h.bytes o ho i
    · exact RangeSet.canonical_insert (written_eq ho ▸ h.canonical) range
    · rintro _ ⟨⟩ i hi
      rw [hbyte i]
      split
      next _ => rfl
      next hnot =>
        rcases (hmem i).mp hi with hi | hi
        · exact h.written o ho i (written_eq ho ▸ hi)
        · exact absurd hi hnot
    · rintro _ ⟨⟩ d hd
      obtain ⟨hdigest, hall⟩ := h.hash o ho d hd
      refine ⟨hdigest, fun i => ?_⟩
      rw [hbyte i, hall i, ite_self]

/-! ## Objects and digests -/

theorem create_cases {m m' : MemoryStore} {size : Nat} {metadata : MetadataMap}
    {result : Except StorageError Unit} (h : m.create size metadata = (result, m')) :
    (m' = m ∧ result ≠ .ok ()) ∨
      (result = .ok () ∧ m' = { m with object := some ⟨.zeros size, metadata, none, .empty⟩ }) := by
  unfold create at h
  split at h
  next _ =>
    injection h with hr hm
    exact .inl ⟨hm.symm, hr ▸ nofun⟩
  next _ =>
    injection h with hr hm
    exact .inr ⟨hr.symm, hm.symm⟩

theorem setContentHash_cases {m m' : MemoryStore} {hash : String}
    {result : Except StorageError Unit} (h : m.setContentHash hash = (result, m')) :
    (m' = m ∧ result ≠ .ok ()) ∨
      ∃ o, m.object = some o ∧ result = .ok () ∧
        m' = { m with object := some { o with contentHash := some hash } } := by
  unfold setContentHash at h
  split at h
  next _ =>
    injection h with hr hm
    exact .inl ⟨hm.symm, hr ▸ nofun⟩
  next o ho =>
    injection h with hr hm
    exact .inr ⟨o, ho, hr.symm, hm.symm⟩

/-- An object that is right everywhere may be given its digest. -/
theorem PartOf.setContentHash {m m' : MemoryStore} {image : ByteArray} {hash : String}
    {result : Except StorageError Unit} (h : m.PartOf image hash)
    (hwhole : ∀ o, m.object = some o → ∀ i, o.data.byteAt i = byteOf image i)
    (hset : m.setContentHash hash = (result, m')) :
    m'.PartOf image hash ∧
      (result = .ok () → ∃ o, m'.object = some o ∧ o.contentHash = some hash) := by
  rcases setContentHash_cases hset with ⟨rfl, hne⟩ | ⟨o, ho, -, rfl⟩
  · exact ⟨h, fun hok => absurd hok hne⟩
  · refine ⟨⟨?_, ?_, ?_, ?_, ?_⟩, fun _ => ⟨_, rfl, rfl⟩⟩
    · rintro _ ⟨⟩
      exact h.size o ho
    · rintro _ ⟨⟩
      exact h.bytes o ho
    · exact written_eq ho ▸ h.canonical
    · rintro _ ⟨⟩ i _
      exact hwhole o ho i
    · rintro _ ⟨⟩ d hd
      injection hd with hd
      exact ⟨hd.symm, hwhole o ho⟩

/-- An object with a digest is the image. -/
theorem PartOf.contents_eq {m : MemoryStore} {image : ByteArray} {hash h : String}
    {o : MemoryObject} (hpart : m.PartOf image hash) (ho : m.object = some o)
    (hh : o.contentHash = some h) : h = hash ∧ m.contents = some image := by
  obtain ⟨heq, hbytes⟩ := hpart.hash o ho h hh
  refine ⟨heq, ?_⟩
  unfold contents
  rw [ho]
  exact congrArg some (SparseBytes.toBytes_of_byteAt (hpart.size o ho) fun i _ => hbytes i)

/-! ## The listing -/

theorem toString_ne_empty (n : Nat) : toString n ≠ "" := by
  rw [Nat.toString_eq_repr]
  exact Nat.repr_ne_empty

/-- A marker is read as the number it was written for. -/
theorem markerOffset?_toString (n : Nat) :
    markerOffset? (toString n) = if n < 2 ^ 64 then some n else none := by
  have hdigits : (toString n).toList = Nat.toDigits 10 n := by
    rw [Nat.toString_eq_repr, Nat.toList_repr]
  have hdigit : ∀ c ∈ Nat.toDigits 10 n, c.isDigit = true := fun c hc =>
    Nat.isDigit_of_mem_toDigits (by decide) (by decide) hc
  have hsign : ∀ rest, Nat.toDigits 10 n ≠ '+' :: rest := by
    intro rest hrest
    exact absurd (hdigit '+' (hrest ▸ List.mem_cons_self)) (by decide)
  have hgood : ((Nat.toDigits 10 n).isEmpty || !(Nat.toDigits 10 n).all Char.isDigit) = false := by
    rw [List.all_eq_true.mpr hdigit, List.isEmpty_eq_false_iff.mpr Nat.toDigits_ne_nil]
    rfl
  -- without a sign in front, what is left of the marker are its digits
  simp only [markerOffset?, hdigits]
  rw [hgood, if_neg nofun, Nat.ofDigitChars_ten_toDigits]

theorem startOf_marker {n : Nat} (h : n < 2 ^ 64) : startOf (some (toString n)) = .ok n := by
  simp only [startOf, if_neg (toString_ne_empty n), markerOffset?_toString, if_pos h]

theorem startOf_toString {n start : Nat} (h : startOf (some (toString n)) = .ok start) :
    start = n := by
  simp only [startOf, if_neg (toString_ne_empty n), markerOffset?_toString] at h
  split at h
  next m hm =>
    split at hm
    next =>
      rw [← Except.ok.inj h]
      exact (Option.some.inj hm).symm
    next => exact nomatch hm
  next => exact nomatch h

theorem list_ok {m : MemoryStore} {marker : Option String} {l : Listing}
    (h : m.list marker = .ok l) :
    ∃ o start, m.object = some o ∧ startOf marker = .ok start ∧
      ((l.next = none ∧ l.ranges = o.written.ranges.drop start) ∨
        ∃ stop, start ≤ stop ∧ l.next = some (toString stop) ∧
          l.ranges ++ o.written.ranges.drop stop = o.written.ranges.drop start) := by
  unfold list at h
  split at h
  next _ => exact nomatch h
  next o ho =>
    split at h
    next _ => exact nomatch h
    next start hstart =>
      injection h with h
      subst h
      refine ⟨o, start, ho, hstart, ?_⟩
      split
      next hstop =>
        refine .inr ⟨_, ?_, rfl, ?_⟩
        · have hlength := m.listingLength_pos
          omega
        · have hle : start ≤ min (start + m.listingLength) o.written.ranges.length := by
            have hlength := m.listingLength_pos
            omega
          have hsplit := List.take_append_drop (min (start + m.listingLength) o.written.ranges.length)
            o.written.ranges
          conv => rhs; rw [← hsplit]
          rw [List.drop_append_of_le_length (by rw [List.length_take]; omega)]
      next hstop =>
        refine .inl ⟨rfl, ?_⟩
        rw [List.take_of_length_le (by omega)]

/-- A listing from a place that is marked comes to its end, if it may have a part for each run
from there on. -/
theorem listFrom_eq {m : MemoryStore} {o : MemoryObject} (ho : m.object = some o)
    (hcount : o.written.ranges.length < 2 ^ 64) {parts start : Nat} {marker : Option String}
    (hstart : startOf marker = .ok start) (hparts : o.written.ranges.length < start + parts)
    (hpositive : 0 < parts) (known : RangeSet) :
    PageStore.listFrom parts marker known m =
      (.ok ((o.written.ranges.drop start).foldl RangeSet.insert known), m) := by
  induction parts generalizing marker start known with
  | zero => exact absurd hpositive (Nat.lt_irrefl 0)
  | succ parts ih =>
    have hlist : PageStore.list m marker = (m.list marker, m) := rfl
    have hlength := m.listingLength_pos
    rw [PageStore.listFrom, hlist]
    unfold list
    simp only [ho, hstart]
    by_cases hmore : min (start + m.listingLength) o.written.ranges.length < o.written.ranges.length
    · have hstop : min (start + m.listingLength) o.written.ranges.length =
          start + m.listingLength := by omega
      rw [if_pos hmore]
      simp only [hstop, if_neg (toString_ne_empty _)]
      rw [ih (startOf_marker (by omega)) (by omega) (by omega), ← List.foldl_append]
      -- the runs of this part and those behind it are the runs from the start on
      have hsplit := List.take_append_drop (start + m.listingLength) o.written.ranges
      rw [← List.drop_append_of_le_length (by rw [List.length_take]; omega), hsplit]
    · rw [if_neg hmore, List.take_of_length_le (by omega)]

end MemoryStore
end ImageUpload
