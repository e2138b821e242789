import ImageUpload.Plan
import ImageUpload.Proofs.Bytes
import ImageUpload.Proofs.Layout

/-
Reading ranges of a source.

Whatever a source does, a range that is read in full holds exactly the bytes of the
source: `readRange_ok`.  A source that delivers an image is one whose calls all
succeed, however few bytes a read brings and however often one is interrupted, where
there is room for the image, and every range of the image can be read from it:
`readRange_delivers`.
-/

namespace ImageUpload

namespace Source

/-- The bytes of a range. -/
def slice (s : Source) (range : ByteRange) : ByteArray :=
  s.bytes.extract range.first (range.last + 1)

theorem byteOf_slice (s : Source) (range : ByteRange) {o : Nat} (h : range.Has o) :
    byteOf (s.slice range) (o - range.first) = byteOf s.bytes o := by
  have hfirst := h.1
  have hlast := h.2
  have hplace : range.first + (o - range.first) = o := by omega
  unfold slice
  rw [byteOf_extract, hplace, if_pos (by omega)]

/-- A source of this image: what it holds, and the size it reports. -/
structure Holds (s : Source) (image : ByteArray) : Prop where
  bytes : s.bytes = image
  size : s.size = image.size

/-- No call of the source panics. -/
structure Steady (s : Source) : Prop where
  seek : ∀ n, s.onSeek n ≠ .panicked
  read : ∀ n, s.onRead n ≠ .panicked

/-- Every call succeeds, though a read may be short or interrupted, and there is room for the
image. -/
structure Delivers (s : Source) (image : ByteArray) : Prop extends Holds s image where
  seek : ∀ n, s.onSeek n = .ready
  read : ∀ n, s.onRead n = .ready
  limit : ∀ n, s.limit n ≠ some 0
  room : ∀ n ≤ image.size, s.room n = true

theorem ofBytes_steady (bytes : ByteArray) : (ofBytes bytes).Steady :=
  ⟨fun _ => nofun, fun _ => nofun⟩

theorem ofBytes_delivers (image : ByteArray) (h : image.size < 2 ^ 63) :
    (ofBytes image).Delivers image :=
  ⟨⟨rfl, rfl⟩, fun _ => rfl, fun _ => rfl, fun _ => nofun,
    fun _ hn => decide_eq_true (Nat.lt_of_le_of_lt hn h)⟩

end Source

namespace Reader

/-! ## One call -/

theorem seek_source (r : Reader) (offset : Nat) : (r.seek offset).2.source = r.source := by
  unfold seek
  split
  next _ => rfl
  next _ => rfl

theorem read_source (r : Reader) (want : Nat) : (r.read want).2.source = r.source := by
  simp only [read]
  split
  next _ => rfl
  next _ =>
    split
    next _ => rfl
    next _ => rfl
    next _ => rfl

theorem read_reads (r : Reader) (want : Nat) : (r.read want).2.reads = r.reads + 1 := by
  simp only [read]
  split
  next _ => rfl
  next _ =>
    split
    next _ => rfl
    next _ => rfl
    next _ => rfl

/-- The bytes of a read are those at the position, which moves past them. -/
theorem read_bytes {r r' : Reader} {want : Nat} {b : ByteArray}
    (h : r.read want = (.bytes b, r')) :
    b = r.source.bytes.extract r.position (r.position + b.size) ∧ b.size ≤ want ∧
      r'.position = r.position + b.size := by
  simp only [read] at h
  split at h
  next _ => exact nomatch h
  next _ =>
    split at h
    next _ => exact nomatch h
    next _ => exact nomatch h
    next _ =>
      injection h with hb hr
      injection hb with hb
      subst hr
      subst hb
      have hsize : ∀ most, (r.source.bytes.extract r.position (r.position + most)).size ≤ most := by
        intro most
        rw [ByteArray.size_extract]
        omega
      refine ⟨(extract_size _ _ _).symm, Nat.le_trans (hsize _) ?_, rfl⟩
      split
      next limit _ => exact Nat.min_le_left want limit
      next _ => exact Nat.le_refl want

/-! ## Reading until a range is full -/

theorem fill_source (steps want : Nat) (got : ByteArray) (r : Reader) :
    (fill steps want got r).2.source = r.source := by
  induction steps generalizing want got r with
  | zero =>
    cases want with
    | zero => rfl
    | succ want => rfl
  | succ steps ih =>
    cases want with
    | zero => rfl
    | succ want =>
      have hread := read_source r (want + 1)
      rw [fill]
      split
      next b r' h =>
        rw [h] at hread
        split
        next _ => exact hread
        next _ => exact (ih _ _ _).trans hread
      next r' h =>
        rw [h] at hread
        exact (ih _ _ _).trans hread
      next h => rw [h] at hread; exact hread
      next h => rw [h] at hread; exact hread

/-- What `fill` adds to the bytes it got are the next bytes of the source, all of them. -/
theorem fill_ok {steps want : Nat} {got b : ByteArray} {r r' : Reader}
    (h : fill steps want got r = (.ok b, r')) :
    b = got ++ r.source.bytes.extract r.position (r.position + want) ∧
      b.size = got.size + want := by
  induction steps generalizing want got r with
  | zero =>
    cases want with
    | zero =>
      injection h with hb _
      injection hb with hb
      rw [← hb, Nat.add_zero, ByteArray.extract_same, ByteArray.append_empty]
      exact ⟨rfl, rfl⟩
    | succ want => exact nomatch h
  | succ steps ih =>
    cases want with
    | zero =>
      injection h with hb _
      injection hb with hb
      rw [← hb, Nat.add_zero, ByteArray.extract_same, ByteArray.append_empty]
      exact ⟨rfl, rfl⟩
    | succ want =>
      have hsource := read_source r (want + 1)
      rw [fill] at h
      split at h
      next part r₁ hread =>
        rw [hread] at hsource
        obtain ⟨hpart, hle, hposition⟩ := read_bytes hread
        split at h
        next _ => exact nomatch h
        next _ =>
          obtain ⟨hb, hsize⟩ := ih h
          have hend : r.position + part.size + (want + 1 - part.size) = r.position + (want + 1) := by
            omega
          rw [hposition, hsource, hend, ByteArray.append_assoc] at hb
          conv at hb => rhs; rhs; lhs; rw [hpart]
          rw [← ByteArray.extract_eq_extract_append_extract _ (Nat.le_add_right _ _) (by omega)] at hb
          rw [ByteArray.size_append] at hsize
          exact ⟨hb, by omega⟩
      next r₁ hread =>
        rw [hread] at hsource
        obtain ⟨hb, hsize⟩ := ih h
        have hposition : r₁.position = r.position := by
          simp only [read] at hread
          split at hread
          next _ =>
            injection hread with _ hr
            rw [← hr]
          next _ =>
            split at hread
            next _ => exact nomatch hread
            next _ => exact nomatch hread
            next _ => exact nomatch hread
        rw [hposition, hsource] at hb
        exact ⟨hb, hsize⟩
      next _ => exact nomatch h
      next _ => exact nomatch h

theorem readRange_source (r : Reader) (range : ByteRange) :
    (r.readRange range).2.source = r.source := by
  have hseek := seek_source r range.first
  unfold readRange
  split
  next hroom =>
    split
    next h => rw [h] at hseek; exact hseek
    next h => rw [h] at hseek; exact hseek
    next r' h =>
      rw [h] at hseek
      have hfill := fill_source (range.length + r'.source.interrupted.length) range.length .empty r'
      split
      next h => rw [h] at hfill; exact hfill.trans hseek
      next h => rw [h] at hfill; exact hfill.trans hseek
      next h => rw [h] at hfill; exact hfill.trans hseek
  next hroom => rfl

/-- A range that is read in full holds the bytes of the source. -/
theorem readRange_ok {r r' : Reader} {range : ByteRange} {b : ByteArray}
    (h : r.readRange range = (.ok b, r')) : b = r.source.slice range ∧ b.size = range.length := by
  have hseek := seek_source r range.first
  unfold readRange at h
  split at h
  next hroom =>
    split at h
    next _ => exact nomatch h
    next _ => exact nomatch h
    next r₁ hs =>
      have hposition : r₁.position = range.first := by
        unfold seek at hs
        split at hs
        next _ =>
          injection hs with _ hr
          rw [← hr]
        next reply hne => exact absurd (Prod.mk.inj hs).1 hne
      rw [hs] at hseek
      split at h
      next b' r₂ hf =>
        injection h with hb _
        injection hb with hb
        subst hb
        obtain ⟨hbytes, hsize⟩ := fill_ok hf
        have hend := range.first_add_length
        rw [ByteArray.empty_append, hposition, hend, hseek] at hbytes
        exact ⟨hbytes, by rw [hsize, ByteArray.size_empty, Nat.zero_add]⟩
      next _ => exact nomatch h
      next _ => exact nomatch h
  next hroom => exact nomatch h

/-- Without room for a buffer the source is not called. -/
theorem readRange_without_room {r : Reader} {range : ByteRange}
    (h : r.source.room range.length = false) : r.readRange range = (.error .panicked, r) := by
  unfold readRange
  rw [h]
  exact if_neg Bool.false_ne_true

theorem room_of_readRange {r r' : Reader} {range : ByteRange} {result : Except SourceFault ByteArray}
    (h : r.readRange range = (result, r')) (hno : result ≠ .error .panicked) :
    r.source.room range.length = true := by
  cases hroom : r.source.room range.length with
  | true => rfl
  | false =>
    rw [readRange_without_room hroom] at h
    exact absurd (Prod.mk.inj h).1.symm hno

/-! ## A source that never panics -/

theorem fill_steady {steps want : Nat} {got : ByteArray} {r : Reader} (h : r.source.Steady)
    (r' : Reader) : fill steps want got r ≠ (.error .panicked, r') := by
  induction steps generalizing want got r with
  | zero =>
    cases want with
    | zero => exact nofun
    | succ want => exact nofun
  | succ steps ih =>
    cases want with
    | zero => exact nofun
    | succ want =>
      have hsource := read_source r (want + 1)
      rw [fill]
      split
      next b r₁ hread =>
        rw [hread] at hsource
        split
        next _ => exact nofun
        next _ => exact ih (r := r₁) (hsource ▸ h)
      next r₁ hread =>
        rw [hread] at hsource
        exact ih (r := r₁) (hsource ▸ h)
      next _ => exact nofun
      next r₁ hread =>
        simp only [read] at hread
        split at hread
        next _ => exact nomatch hread
        next _ =>
          split at hread
          next hpanic => exact absurd hpanic (h.read _)
          next _ => exact nomatch hread
          next _ => exact nomatch hread

theorem readRange_steady {r : Reader} {range : ByteRange} (h : r.source.Steady)
    (hroom : r.source.room range.length = true) (r' : Reader) :
    r.readRange range ≠ (.error .panicked, r') := by
  have hseek := seek_source r range.first
  intro hpanic
  unfold readRange at hpanic
  rw [if_pos hroom] at hpanic
  split at hpanic
  next _ => exact nomatch hpanic
  next r₁ hs =>
    unfold seek at hs
    split at hs
    next _ => exact nomatch hs
    next reply hne =>
      injection hs with hreply _
      exact h.seek _ hreply
  next r₁ hs =>
    rw [hs] at hseek
    split at hpanic
    next _ => exact nomatch hpanic
    next _ => exact nomatch hpanic
    next r₂ hf => exact fill_steady (r := r₁) (hseek ▸ h) r₂ hf

/-! ## A source that delivers -/

/-- The interruptions that calls from number `n` on can still meet with. -/
def pending (interrupted : List Nat) (n : Nat) : Nat :=
  interrupted.countP (fun i => decide (n ≤ i))

theorem pending_succ_le (l : List Nat) (n : Nat) : pending l (n + 1) ≤ pending l n := by
  refine List.countP_mono_left fun i _ hi => ?_
  have hle := of_decide_eq_true hi
  exact decide_eq_true (by omega)

theorem pending_succ_lt {l : List Nat} {n : Nat} (h : n ∈ l) : pending l (n + 1) < pending l n := by
  induction l with
  | nil => exact absurd h List.not_mem_nil
  | cons i l ih =>
    have hle := pending_succ_le l n
    unfold pending at hle ih ⊢
    rw [List.countP_cons, List.countP_cons]
    rcases List.mem_cons.mp h with rfl | htail
    · rw [if_neg (by simp), if_pos (by simp)]
      omega
    · have hlt := ih htail
      by_cases hi : n + 1 ≤ i
      · rw [if_pos (decide_eq_true hi), if_pos (decide_eq_true (by omega))]
        omega
      · rw [if_neg (by simp only [decide_eq_true_eq]; exact hi)]
        omega

theorem pending_le (l : List Nat) (n : Nat) : pending l n ≤ l.length :=
  List.countP_le_length

/-- A read inside the image is interrupted or brings a byte at least. -/
theorem read_delivers {r : Reader} {image : ByteArray} {want : Nat} (hd : r.source.Delivers image)
    (hwant : 0 < want) (hposition : r.position < image.size) :
    (r.reads ∈ r.source.interrupted ∧
        r.read want = (.interrupted, { r with reads := r.reads + 1 })) ∨
      ∃ b r', r.read want = (.bytes b, r') ∧ 0 < b.size := by
  by_cases hi : r.reads ∈ r.source.interrupted
  · refine .inl ⟨hi, ?_⟩
    unfold read
    rw [if_pos (by simpa using hi)]
  · refine .inr ?_
    have hsize : ∀ most, 0 < most →
        0 < (r.source.bytes.extract r.position (r.position + most)).size := by
      intro most hmost
      rw [ByteArray.size_extract, hd.bytes]
      omega
    unfold read
    rw [if_neg (by simpa using hi), hd.read r.reads]
    refine ⟨_, _, rfl, hsize _ ?_⟩
    split
    next limit h =>
      have hlimit : limit ≠ 0 := fun h0 => hd.limit r.reads (h0 ▸ h)
      exact Nat.lt_min.mpr ⟨hwant, Nat.pos_of_ne_zero hlimit⟩
    next _ => exact hwant

theorem fill_delivers {image : ByteArray} {steps want : Nat} (got : ByteArray) {r : Reader}
    (hd : r.source.Delivers image) (hinside : r.position + want ≤ image.size)
    (hsteps : want + pending r.source.interrupted r.reads ≤ steps) :
    ∃ b r', fill steps want got r = (.ok b, r') := by
  induction steps generalizing want got r with
  | zero =>
    have hwant : want = 0 := by omega
    subst hwant
    exact ⟨_, _, rfl⟩
  | succ steps ih =>
    cases want with
    | zero => exact ⟨_, _, rfl⟩
    | succ want =>
      have hsource := read_source r (want + 1)
      have hreads := read_reads r (want + 1)
      rcases read_delivers hd (Nat.succ_pos want) (by omega) with ⟨hi, hread⟩ | ⟨b, r', hread, hb⟩
      · have hlt := pending_succ_lt hi
        rw [fill, hread]
        exact ih got (r := { r with reads := r.reads + 1 }) hd hinside (by
          show want + 1 + pending r.source.interrupted (r.reads + 1) ≤ steps
          omega)
      · obtain ⟨-, hle, hposition⟩ := read_bytes hread
        rw [hread] at hsource hreads
        have hpending := pending_succ_le r.source.interrupted r.reads
        have hne : ¬ b.size = 0 := by omega
        rw [fill, hread]
        simp only [if_neg hne]
        refine ih _ (r := r') (by rw [hsource]; exact hd) (by omega) ?_
        rw [hsource, hreads]
        omega

/-- Every range of the image can be read from a source that delivers it. -/
theorem readRange_delivers {image : ByteArray} {r : Reader} {range : ByteRange}
    (hd : r.source.Delivers image) (hinside : range.last < image.size) :
    ∃ r', r.readRange range = (.ok (r.source.slice range), r') := by
  have hend := range.first_add_length
  have hpending := pending_le r.source.interrupted r.reads
  obtain ⟨b, r', hfill⟩ : ∃ b r', fill (range.length + r.source.interrupted.length) range.length
      .empty { r with position := range.first, seeks := r.seeks + 1 } = (.ok b, r') := by
    refine fill_delivers .empty hd ?_ ?_
    · show range.first + range.length ≤ image.size
      omega
    · show range.length + pending r.source.interrupted r.reads ≤ _
      omega
  have hok : r.readRange range = (.ok b, r') := by
    unfold readRange seek
    rw [if_pos (hd.room _ (by omega)), hd.seek r.seeks]
    simp only [hfill]
  exact ⟨r', by rw [hok, (readRange_ok hok).1]⟩

end Reader
end ImageUpload
