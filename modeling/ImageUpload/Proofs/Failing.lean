import ImageUpload.Proofs.Reading

/-
Where reading fails.

A range is read by one seek and by as many reads as it takes.  `Fills` tells what the reads
come to call by call, without a bound on their number, and `fill` has steps enough for all of
them, `fill_of_fills`.  So a range is reported as unreadable exactly if one of the calls for it
fails or brings nothing, `Fails`, and of several ranges the first such one is reported,
`FailsAt`.
-/

namespace ImageUpload
namespace Reader

/-! ## Reads -/

/-- What the reads come to that are to bring `want` more bytes. -/
inductive Fills : (want : Nat) → ByteArray → Reader → Except FillFault ByteArray → Reader → Prop where
  | full (got : ByteArray) (r : Reader) : Fills 0 got r (.ok got) r
  | part {want : Nat} {got b : ByteArray} {r r₁ r' : Reader} {result : Except FillFault ByteArray}
    (hread : r.read (want + 1) = (.bytes b, r₁)) (hb : 0 < b.size)
    (hrest : Fills (want + 1 - b.size) (got ++ b) r₁ result r') : Fills (want + 1) got r result r'
  | again {want : Nat} {got : ByteArray} {r r₁ r' : Reader} {result : Except FillFault ByteArray}
    (hread : r.read (want + 1) = (.interrupted, r₁))
    (hrest : Fills (want + 1) got r₁ result r') : Fills (want + 1) got r result r'
  /-- The source has no more bytes. -/
  | dry {want : Nat} {got b : ByteArray} {r r₁ : Reader}
    (hread : r.read (want + 1) = (.bytes b, r₁)) (hb : b.size = 0) :
    Fills (want + 1) got r (.error endOfSource) r₁
  | failed {want : Nat} {got : ByteArray} {r r₁ : Reader} {reason : String}
    (hread : r.read (want + 1) = (.failed reason, r₁)) :
    Fills (want + 1) got r (.error (.failed reason)) r₁
  | panicked {want : Nat} {got : ByteArray} {r r₁ : Reader}
    (hread : r.read (want + 1) = (.panicked, r₁)) : Fills (want + 1) got r (.error .panicked) r₁

variable {r r₁ r' : Reader} {want steps : Nat} {got : ByteArray}
  {result : Except FillFault ByteArray} {range : ByteRange} {ranges : List ByteRange}
  {reason : String}

theorem pending_read {answer : ReadResult} (hread : r.read want = (answer, r₁)) :
    pending r₁.source.interrupted r₁.reads ≤ pending r.source.interrupted r.reads := by
  have hsource := read_source r want
  have hreads := read_reads r want
  rw [hread] at hsource hreads
  rw [hsource, hreads]
  exact pending_succ_le _ _

/-- An interrupted read uses up one of the interruptions that are ahead. -/
theorem pending_read_interrupted (hread : r.read want = (.interrupted, r₁)) :
    pending r₁.source.interrupted r₁.reads < pending r.source.interrupted r.reads := by
  have hmem : r.reads ∈ r.source.interrupted := by
    by_cases hi : r.source.interrupted.contains r.reads = true
    · exact List.contains_iff_mem.mp hi
    · simp only [read, if_neg hi] at hread
      split at hread
      next => cases hread
      next => cases hread
      next => cases hread
  have hsource := read_source r want
  have hreads := read_reads r want
  rw [hread] at hsource hreads
  rw [hsource, hreads]
  exact pending_succ_lt hmem

theorem fill_of_fills (h : Fills want got r result r')
    (hsteps : want + pending r.source.interrupted r.reads ≤ steps) :
    fill steps want got r = (result, r') := by
  induction steps generalizing want got r with
  | zero =>
    obtain rfl : want = 0 := by omega
    cases h
    rfl
  | succ steps ih =>
    cases h with
    | full => rfl
    | part hread hb hrest =>
      have hpending := pending_read hread
      rw [fill, hread]
      simp only [if_neg (Nat.ne_of_gt hb)]
      exact ih hrest (by omega)
    | again hread hrest =>
      -- the bytes that are wanted are as many as before, but one interruption is used up
      have hpending := pending_read_interrupted hread
      rw [fill, hread]
      exact ih hrest (by omega)
    | dry hread hb =>
      rw [fill, hread]
      simp only [if_pos hb]
    | failed hread => rw [fill, hread]
    | panicked hread => rw [fill, hread]

/-- Reading always comes to something. -/
theorem fills_fill (hsteps : want + pending r.source.interrupted r.reads ≤ steps) :
    Fills want got r (fill steps want got r).1 (fill steps want got r).2 := by
  induction steps generalizing want got r with
  | zero =>
    obtain rfl : want = 0 := by omega
    exact .full got r
  | succ steps ih =>
    cases want with
    | zero => exact .full got r
    | succ want =>
      rw [fill]
      rcases hread : r.read (want + 1) with ⟨b | _ | reason | _, r₁⟩
      · have hpending := pending_read hread
        by_cases hb : b.size = 0
        · simp only [if_pos hb]
          exact .dry hread hb
        · simp only [if_neg hb]
          exact .part hread (by omega) (ih (by omega))
      · have hpending := pending_read_interrupted hread
        exact .again hread (ih (by omega))
      · exact .failed hread
      · exact .panicked hread

/-! ## Ranges -/

/-- A call for the range fails, or brings nothing before the range is full.  There is room for the
range, and all calls before succeed, apart from those that are interrupted. -/
def Fails (r : Reader) (range : ByteRange) (reason : String) : Prop :=
  r.source.room range.length = true ∧
    ((∃ r₁, r.seek range.first = (.failed reason, r₁)) ∨
      ∃ r₁ r', r.seek range.first = (.ready, r₁) ∧
        Fills range.length .empty r₁ (.error (.failed reason)) r')

theorem steps_suffice (r : Reader) (range : ByteRange) :
    range.length + pending r.source.interrupted r.reads ≤
      range.length + r.source.interrupted.length :=
  Nat.add_le_add_left (pending_le _ _) _

theorem readRange_of_fails (h : r.Fails range reason) :
    ∃ r', r.readRange range = (.error (.failed (.sourceRead range.first reason)), r') := by
  obtain ⟨hroom, ⟨r₁, hseek⟩ | ⟨r₁, r', hseek, hfills⟩⟩ := h
  · exact ⟨r₁, by simp only [readRange, if_pos hroom, hseek]⟩
  · refine ⟨r', ?_⟩
    simp only [readRange, if_pos hroom, hseek, fill_of_fills hfills (steps_suffice r₁ range)]

/-- A range is not reported as unreadable for any other cause. -/
theorem fails_of_readRange {e : TransferError} (h : r.readRange range = (.error (.failed e), r')) :
    ∃ reason, e = .sourceRead range.first reason ∧ r.Fails range reason := by
  have hroom := room_of_readRange h nofun
  rcases hseek : r.seek range.first with ⟨_ | reason | _, r₁⟩
  · have hfills : Fills range.length .empty r₁ _ _ := fills_fill (steps_suffice r₁ range)
    rcases hfill : fill (range.length + r₁.source.interrupted.length) range.length .empty r₁ with
      ⟨(_ | _) | _, r₂⟩
    all_goals
      simp only [readRange, if_pos hroom, hseek, hfill] at h
      rw [hfill] at hfills
    · cases h
      exact ⟨_, rfl, hroom, .inr ⟨r₁, _, hseek, hfills⟩⟩
    · cases h
    · cases h
  · simp only [readRange, if_pos hroom, hseek] at h
    cases h
    exact ⟨reason, rfl, hroom, .inl ⟨_, hseek⟩⟩
  · simp only [readRange, if_pos hroom, hseek] at h
    cases h

/-- These ranges are read in full, one after another. -/
inductive Reads : Reader → List ByteRange → Reader → Prop where
  | nil (r : Reader) : Reads r [] r
  | cons {r r₁ r' : Reader} {range : ByteRange} {rest : List ByteRange} {data : ByteArray}
    (hread : r.readRange range = (.ok data, r₁)) (hrest : Reads r₁ rest r') :
    Reads r (range :: rest) r'

theorem Reads.concat {data : ByteArray} (h : Reads r ranges r₁)
    (hread : r₁.readRange range = (.ok data, r')) : Reads r (ranges ++ [range]) r' := by
  induction h with
  | nil r => exact .cons hread (.nil r')
  | cons hread' hrest ih => exact .cons hread' (ih hread)

/-- Of these ranges, read one after another, the one with this number is the first that a call
fails for. -/
inductive FailsAt : Reader → List ByteRange → Nat → String → Prop where
  | here {r : Reader} {range : ByteRange} {rest : List ByteRange} {reason : String}
    (h : r.Fails range reason) : FailsAt r (range :: rest) 0 reason
  | later {r r₁ : Reader} {range : ByteRange} {rest : List ByteRange} {data : ByteArray} {i : Nat}
    {reason : String} (hread : r.readRange range = (.ok data, r₁))
    (h : FailsAt r₁ rest i reason) : FailsAt r (range :: rest) (i + 1) reason

/-- Nothing is read beyond the range that fails. -/
theorem FailsAt.length_le {i : Nat} {rest : List ByteRange} (h : FailsAt r (ranges ++ rest) i reason)
    (hreads : Reads r ranges r₁) : ranges.length ≤ i := by
  induction hreads generalizing i with
  | nil r => exact Nat.zero_le i
  | cons hread hreads ih =>
    cases h with
    | here hfails =>
      obtain ⟨r', hfault⟩ := readRange_of_fails hfails
      exact nomatch hfault.symm.trans hread
    | later hread' h =>
      obtain ⟨-, rfl⟩ := Prod.mk.inj (hread.symm.trans hread')
      exact Nat.succ_le_succ (ih h)

/-- Where a range is the first that a call fails for, all ranges before it can be read. -/
theorem FailsAt.split {i : Nat} (h : FailsAt r ranges i reason) :
    ∃ before range after r₁, ranges = before ++ range :: after ∧ ranges[i]? = some range ∧
      Reads r before r₁ ∧ r₁.Fails range reason := by
  induction h with
  | @here r range rest reason h => exact ⟨[], range, rest, r, rfl, rfl, .nil r, h⟩
  | later hread h ih =>
    obtain ⟨before, range, after, r₁, rfl, hi, hreads, hfails⟩ := ih
    exact ⟨_ :: before, range, after, r₁, rfl, hi, .cons hread hreads, hfails⟩

/-- A source that never panics lets all ranges be read, or for one of them a call is the first to
fail, or there is no room. -/
theorem reads_or_stuck (h : r.source.Steady) (ranges : List ByteRange) :
    (∃ r', Reads r ranges r') ∨ ∃ before range after r₁, ranges = before ++ range :: after ∧
      Reads r before r₁ ∧
        ((∃ reason, r₁.Fails range reason) ∨ r₁.source.room range.length = false) := by
  induction ranges generalizing r with
  | nil => exact .inl ⟨r, .nil r⟩
  | cons range rest ih =>
    have hsource := r.readRange_source range
    cases hroom : r.source.room range.length with
    | false => exact .inr ⟨[], range, rest, r, rfl, .nil r, .inr hroom⟩
    | true =>
      rcases hread : r.readRange range with ⟨(e | _) | data, r₁⟩
      · obtain ⟨reason, -, hfails⟩ := fails_of_readRange hread
        exact .inr ⟨[], range, rest, r, rfl, .nil r, .inl ⟨reason, hfails⟩⟩
      · exact absurd hread (readRange_steady h hroom r₁)
      · rw [hread] at hsource
        rcases ih (r := r₁) (hsource ▸ h) with ⟨r', hreads⟩ |
          ⟨before, stuck, after, r₂, rfl, hreads, hstuck⟩
        · exact .inl ⟨r', .cons hread hreads⟩
        · exact .inr ⟨range :: before, stuck, after, r₂, rfl, .cons hread hreads, hstuck⟩

/-! ## Plans -/

/-- The first range that cannot be read ends the pass. -/
theorem nonZero_of_misread {before after : List ByteRange} {f : SourceFault}
    (hreads : Reads r before r₁) (hread : r₁.readRange range = (.error f, r')) :
    nonZero (before ++ range :: after) r = (.error f, r') := by
  induction hreads with
  | nil r => rw [List.nil_append, nonZero, hread]
  | cons hfirst hreads ih => simp only [List.cons_append, nonZero, hfirst, ih hread]

theorem nonZero_of_failsAt {i : Nat} (h : FailsAt r ranges i reason) (hi : ranges[i]? = some range) :
    ∃ r', nonZero ranges r = (.error (.failed (.sourceRead range.first reason)), r') := by
  obtain ⟨before, range', after, r₁, rfl, hi', hreads, hfails⟩ := h.split
  obtain rfl : range' = range := Option.some.inj (hi'.symm.trans hi)
  obtain ⟨r', hread⟩ := readRange_of_fails hfails
  exact ⟨r', nonZero_of_misread hreads hread⟩

theorem reconcile_of_failsAt {layout : Layout} {present : RangeSet} {i : Nat}
    (hlocate : layout.locate r.source.size present = .ok ranges) (h : FailsAt r ranges i reason)
    (hi : ranges[i]? = some range) :
    ∃ r', r.reconcile layout present =
      (.error (.failed (.sourceRead range.first reason)), r') := by
  obtain ⟨r', hrest⟩ := nonZero_of_failsAt h hi
  exact ⟨r', by simp only [reconcile, hlocate, hrest]⟩

end Reader
end ImageUpload
