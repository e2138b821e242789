import Mathlib.Data.List.Basic
import ImageUpload.Proofs.Failing
import ImageUpload.Proofs.Plan
import ImageUpload.Proofs.Word

/-
Which ranges of a source are not all zero.

One buffer can serve for all ranges: it is cut or filled up to the length of each range, and what
an earlier range left in it is overwritten before anybody looks, `nonZeroIn_eq`.  So a range is
kept exactly if the source has a byte in it that is not zero, however the reads came about that
brought it.  If one range cannot be read there is no list at all, and the first such range is
reported, unless it was too long for any buffer: `nonZero_exact`.
-/

namespace ImageUpload

/-- The range has a byte that is not zero. -/
def Source.NonZero (s : Source) (range : ByteRange) : Prop :=
  ∃ o, range.Has o ∧ byteOf s.bytes o ≠ 0

theorem Source.nonZero_iff {s : Source} {range : ByteRange} :
    s.NonZero range ↔ isZeroed (s.slice range) = false := by
  rw [← Bool.not_eq_true, isZeroed_slice]
  unfold NonZero
  simp only [Classical.not_forall, exists_prop]

instance (s : Source) (range : ByteRange) : Decidable (s.NonZero range) :=
  decidable_of_iff _ s.nonZero_iff.symm

/-- The bytes cut off at a size, or filled up with zeros. -/
def resized (b : ByteArray) (n : Nat) : ByteArray :=
  (b ++ zeroBytes (n - b.size)).extract 0 n

theorem size_resized (b : ByteArray) (n : Nat) : (resized b n).size = n := by
  unfold resized
  rw [ByteArray.size_extract, ByteArray.size_append, size_zeroBytes]
  omega

/-- Data that is put where the first bytes end becomes a part of them. -/
theorem extract_overwrite {b data : ByteArray} {place : Nat} (h : place + data.size ≤ b.size) :
    (overwrite b place data).extract 0 (place + data.size) = b.extract 0 place ++ data := by
  have hfront : (b.extract 0 place).size = place := by
    rw [ByteArray.size_extract]
    omega
  refine ext_byteOf ?_ fun i hi => ?_
  · rw [ByteArray.size_extract, size_overwrite, ByteArray.size_append, hfront]
    omega
  · rw [ByteArray.size_extract, size_overwrite] at hi
    rw [byteOf_extract, byteOf_append, hfront, byteOf_overwrite, Nat.zero_add,
      if_pos (show i < place + data.size by omega)]
    by_cases hlow : i < place
    · rw [if_neg (by omega), if_pos hlow, byteOf_extract, Nat.zero_add, if_pos hlow]
    · rw [if_pos (by omega), if_neg hlow]

namespace Reader

/-! ## One buffer for all ranges -/

/-- Read into a buffer from a place on until it is full. -/
def fillBuffer : (steps place : Nat) → ByteArray → Reader → Except FillFault ByteArray × Reader
  | 0, place, buffer, r =>
    if buffer.size ≤ place then (.ok buffer, r) else (.error endOfSource, r)
  | steps + 1, place, buffer, r =>
    if buffer.size ≤ place then (.ok buffer, r)
    else
      match r.read (buffer.size - place) with
      | (.bytes b, r) =>
        if b.size = 0 then (.error endOfSource, r)
        else fillBuffer steps (place + b.size) (overwrite buffer place b) r
      | (.interrupted, r) => fillBuffer steps place buffer r
      | (.failed reason, r) => (.error (.failed reason), r)
      | (.panicked, r) => (.error .panicked, r)

/-- `readRange` with a buffer of the length of the range, whatever it holds. -/
def readInto (r : Reader) (range : ByteRange) (buffer : ByteArray) :
    Except SourceFault ByteArray × Reader :=
  if r.source.room range.length then
    match r.seek range.first with
    | (.failed reason, r) => (.error (.failed (.sourceRead range.first reason)), r)
    | (.panicked, r) => (.error .panicked, r)
    | (.ready, r) =>
      match fillBuffer (range.length + r.source.interrupted.length) 0 buffer r with
      | (.ok b, r) => (.ok b, r)
      | (.error (.failed reason), r) => (.error (.failed (.sourceRead range.first reason)), r)
      | (.error .panicked, r) => (.error .panicked, r)
  else (.error .panicked, r)

/-- `nonZero` with one buffer, which grows and shrinks from range to range. -/
def nonZeroIn (buffer : ByteArray) :
    List ByteRange → Reader → Except SourceFault (List ByteRange) × Reader
  | [], r => (.ok [], r)
  | range :: rest, r =>
    match r.readInto range (resized buffer range.length) with
    | (.error e, r) => (.error e, r)
    | (.ok buffer, r) =>
      match nonZeroIn buffer rest r with
      | (.error e, r) => (.error e, r)
      | (.ok kept, r) => (.ok (if isZeroed buffer then kept else range :: kept), r)

/-- Of the buffer only what stands before the place counts. -/
theorem fillBuffer_eq {steps place : Nat} {buffer : ByteArray} (h : place ≤ buffer.size)
    (r : Reader) : fillBuffer steps place buffer r =
      fill steps (buffer.size - place) (buffer.extract 0 place) r := by
  induction steps generalizing place buffer r with
  | zero =>
    rw [fillBuffer]
    by_cases hfull : buffer.size ≤ place
    · obtain rfl : place = buffer.size := Nat.le_antisymm h hfull
      rw [if_pos hfull, Nat.sub_self, fill, ByteArray.extract_zero_size]
    · obtain ⟨want, hwant⟩ := Nat.exists_eq_succ_of_ne_zero (n := buffer.size - place) (by omega)
      rw [if_neg hfull, hwant, fill]
  | succ steps ih =>
    rw [fillBuffer]
    by_cases hfull : buffer.size ≤ place
    · obtain rfl : place = buffer.size := Nat.le_antisymm h hfull
      rw [if_pos hfull, Nat.sub_self, fill, ByteArray.extract_zero_size]
    · obtain ⟨want, hwant⟩ := Nat.exists_eq_succ_of_ne_zero (n := buffer.size - place) (by omega)
      rw [if_neg hfull, hwant, fill]
      rcases hread : r.read (want + 1) with ⟨b | _ | reason | _, r₁⟩
      · obtain ⟨-, hle, -⟩ := read_bytes hread
        have hsize : (overwrite buffer place b).size = buffer.size := by
          rw [size_overwrite]
          omega
        have hrest : buffer.size - (place + b.size) = want + 1 - b.size := by omega
        simp only
        split
        next => rfl
        next => rw [ih (by omega), hsize, hrest, extract_overwrite (by omega)]
      · simp only
        rw [ih h, hwant]
      · rfl
      · rfl

theorem readInto_eq (r : Reader) {range : ByteRange} {buffer : ByteArray}
    (h : buffer.size = range.length) : r.readInto range buffer = r.readRange range := by
  have hfill : ∀ steps r₁, fillBuffer steps 0 buffer r₁ = fill steps range.length .empty r₁ := by
    intro steps r₁
    rw [fillBuffer_eq (Nat.zero_le _), h, Nat.sub_zero, ByteArray.extract_same]
  unfold readInto readRange
  refine ite_congr rfl (fun _ => ?_) fun _ => rfl
  rcases r.seek range.first with ⟨_ | reason | _, r₁⟩
  · rcases hread : fill (range.length + r₁.source.interrupted.length) range.length .empty r₁ with
      ⟨(reason | _) | b, r₂⟩
    · simp only [hfill, hread]
    · simp only [hfill, hread]
    · simp only [hfill, hread]
  · rfl
  · rfl

/-- It makes no difference what the buffer held before. -/
theorem nonZeroIn_eq (buffer : ByteArray) (ranges : List ByteRange) (r : Reader) :
    nonZeroIn buffer ranges r = nonZero ranges r := by
  induction ranges generalizing buffer r with
  | nil => rfl
  | cons range rest ih =>
    rw [nonZeroIn, nonZero, readInto_eq r (size_resized buffer range.length)]
    rcases r.readRange range with ⟨e | b, r₁⟩
    · rfl
    · rcases hrest : nonZero rest r₁ with ⟨e | kept, r₂⟩
      · simp only [ih, hrest]
      · simp only [ih, hrest]

/-! ## Ranges that can be read -/

/-- These ranges can be read in full, one after another: there is room for each of them, every
seek succeeds, and the reads bring bytes, or are interrupted and tried again, until the range is
full. -/
inductive Completes : Reader → List ByteRange → Reader → Prop where
  | nil (r : Reader) : Completes r [] r
  | cons {r r₁ r₂ r' : Reader} {range : ByteRange} {rest : List ByteRange} {data : ByteArray}
    (hroom : r.source.room range.length = true) (hseek : r.seek range.first = (.ready, r₁))
    (hfills : Fills range.length .empty r₁ (.ok data) r₂)
    (hrest : Completes r₂ rest r') : Completes r (range :: rest) r'

variable {r r₁ r₂ r' : Reader} {range : ByteRange} {ranges : List ByteRange} {data : ByteArray}

theorem readRange_of_fills (hroom : r.source.room range.length = true)
    (hseek : r.seek range.first = (.ready, r₁))
    (hfills : Fills range.length .empty r₁ (.ok data) r₂) :
    r.readRange range = (.ok data, r₂) := by
  simp only [readRange, if_pos hroom, hseek, fill_of_fills hfills (steps_suffice r₁ range)]

theorem fills_of_readRange (h : r.readRange range = (.ok data, r₂)) :
    r.source.room range.length = true ∧
      ∃ r₁, r.seek range.first = (.ready, r₁) ∧ Fills range.length .empty r₁ (.ok data) r₂ := by
  have hroom := room_of_readRange h nofun
  refine ⟨hroom, ?_⟩
  rcases hseek : r.seek range.first with ⟨_ | reason | _, r₁⟩
  · have hfills : Fills range.length .empty r₁ _ _ := fills_fill (steps_suffice r₁ range)
    rcases hfill : fill (range.length + r₁.source.interrupted.length) range.length .empty r₁ with
      ⟨(_ | _) | _, r₃⟩
    all_goals
      simp only [readRange, if_pos hroom, hseek, hfill] at h
      rw [hfill] at hfills
    · cases h
    · cases h
    · cases h
      exact ⟨r₁, rfl, hfills⟩
  · simp only [readRange, if_pos hroom, hseek] at h
    cases h
  · simp only [readRange, if_pos hroom, hseek] at h
    cases h

theorem completes_iff : Completes r ranges r' ↔ Reads r ranges r' := by
  constructor
  · intro h
    induction h with
    | nil r => exact .nil r
    | cons hroom hseek hfills hrest ih => exact .cons (readRange_of_fills hroom hseek hfills) ih
  · intro h
    induction h with
    | nil r => exact .nil r
    | cons hread hrest ih =>
      obtain ⟨hroom, r₁, hseek, hfills⟩ := fills_of_readRange hread
      exact .cons hroom hseek hfills ih

theorem nonZero_of_reads (h : Reads r ranges r') :
    (nonZero ranges r).1 = .ok (ranges.filter fun range => decide (r.source.NonZero range)) := by
  have hok : ∃ kept, nonZero ranges r = (.ok kept, r') := by
    induction h with
    | nil r => exact ⟨[], rfl⟩
    | cons hread hrest ih =>
      obtain ⟨kept, hkept⟩ := ih
      rw [nonZero, hread]
      simp only [hkept]
      exact ⟨_, rfl⟩
  obtain ⟨kept, hkept⟩ := hok
  rw [hkept, nonZero_ok hkept]
  refine congrArg Except.ok (List.filter_congr fun range _ => ?_)
  rw [Bool.eq_iff_iff, decide_eq_true_iff, Source.nonZero_iff, Bool.not_eq_true']

/-- If all ranges can be read, those are kept that have a byte in the source that is not zero.
Otherwise the first that cannot be read ends the pass, and nothing is kept: it is reported if a call
for it failed, and if there is no room for so many bytes the pass panics.  What the one buffer held
has no part in it. -/
theorem nonZero_exact (h : r.source.Steady) (buffer : ByteArray) (ranges : List ByteRange)
    (hlength : ∀ range ∈ ranges, range.length?.isSome = true) :
    nonZeroIn buffer ranges r = nonZero ranges r ∧
      ((∃ r', Completes r ranges r') → (nonZero ranges r).1 =
        .ok (ranges.filter fun range => decide (r.source.NonZero range))) ∧
      ((¬∃ r', Completes r ranges r') → ∃ before range after r₁,
        ranges = before ++ range :: after ∧ Completes r before r₁ ∧
          ((∃ reason, r₁.Fails range reason ∧
              (nonZero ranges r).1 = .error (.failed (.sourceRead range.first reason))) ∨
            ∃ n, range.length? = some n ∧ r₁.source.room n = false ∧
              (nonZero ranges r).1 = .error .panicked)) := by
  refine ⟨nonZeroIn_eq buffer ranges r, ?_, fun hno => ?_⟩
  · rintro ⟨r', hcompletes⟩
    exact nonZero_of_reads (completes_iff.mp hcompletes)
  · rcases reads_or_stuck h ranges with ⟨r', hreads⟩ | ⟨before, range, after, r₁, rfl, hreads, hstuck⟩
    · exact absurd ⟨r', completes_iff.mpr hreads⟩ hno
    · refine ⟨before, range, after, r₁, rfl, completes_iff.mpr hreads, ?_⟩
      rcases hstuck with ⟨reason, hfails⟩ | hroom
      · obtain ⟨r', hread⟩ := readRange_of_fails hfails
        exact .inl ⟨reason, hfails, by rw [nonZero_of_misread hreads hread]⟩
      · have hread := readRange_without_room hroom
        have hn := ByteRange.length?_of_isSome (hlength range (by simp))
        exact .inr ⟨_, hn, hroom, by rw [nonZero_of_misread hreads hread]⟩

/-- Every read brings one byte, and the second one is interrupted.  The first range is zero
although the buffer was not, the second is kept, and the third reaches past the end. -/
theorem nonZero_exact_ragged :
    let source : Source := { bytes := ⟨#[0, 0, 7, 0, 9]⟩, size := 5, limit := fun _ => some 1,
                             interrupted := [1] }
    let zeros : ByteRange := ⟨0, 1, by decide, by decide⟩
    let middle : ByteRange := ⟨2, 3, by decide, by decide⟩
    let past : ByteRange := ⟨4, 5, by decide, by decide⟩
    source.Steady ∧
      (nonZeroIn ⟨#[1, 2, 3]⟩ [zeros, middle] (.ofSource source)).1 = .ok [middle] ∧
      (nonZeroIn ⟨#[1, 2, 3]⟩ [zeros, middle, past] (.ofSource source)).1 =
        .error (.failed (.sourceRead 4 "failed to fill whole buffer")) ∧
      ∃ before range after r₁ reason, [zeros, middle, past] = before ++ range :: after ∧
        Completes (.ofSource source) before r₁ ∧ r₁.Fails range reason := by
  intro source zeros middle past
  have hsteady : source.Steady := ⟨fun _ => nofun, fun _ => nofun⟩
  have hkept : (nonZero [zeros, middle] (.ofSource source)).1 = .ok [middle] := by decide +kernel
  have hfault : (nonZero [zeros, middle, past] (.ofSource source)).1 =
      .error (.failed (.sourceRead 4 "failed to fill whole buffer")) := by decide +kernel
  obtain ⟨hbuffer, -, -⟩ :=
    nonZero_exact (r := .ofSource source) hsteady ⟨#[1, 2, 3]⟩ [zeros, middle] (by decide)
  obtain ⟨hbuffer', hall, hfirst⟩ :=
    nonZero_exact (r := .ofSource source) hsteady ⟨#[1, 2, 3]⟩ [zeros, middle, past] (by decide)
  refine ⟨hsteady, hbuffer ▸ hkept, hbuffer' ▸ hfault, ?_⟩
  obtain ⟨before, range, after, r₁, hranges, hcompletes, hstuck⟩ :=
    hfirst fun hcompletes => nomatch hfault.symm.trans (hall hcompletes)
  rcases hstuck with ⟨reason, hfails, -⟩ | ⟨_, -, -, hpanic⟩
  · exact ⟨before, range, after, r₁, reason, hranges, hcompletes, hfails⟩
  · exact nomatch hfault.symm.trans hpanic

/-- A range of all offsets but the first cannot be read from a source of one byte, but that is not
reported: there is no buffer to read it into. -/
theorem nonZero_without_room :
    let source : Source := .ofBytes ⟨#[7]⟩
    let range : ByteRange := ⟨1, 2 ^ 64 - 1, by decide, by decide⟩
    source.Steady ∧ range.length? = some (2 ^ 64 - 1) ∧
      (nonZero [range] (.ofSource source)).1 = .error .panicked ∧
      ∀ reason, (nonZero [range] (.ofSource source)).1 ≠
        .error (.failed (.sourceRead range.first reason)) := by
  intro source range
  have hpanic : (nonZero [range] (.ofSource source)).1 = .error .panicked := by
    rw [nonZero, readRange_without_room (by decide)]
  refine ⟨Source.ofBytes_steady _, by decide, hpanic, fun reason h => ?_⟩
  rw [hpanic] at h
  cases h

end Reader
end ImageUpload
