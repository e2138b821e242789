import ImageUpload.Progress.Throughput

/-
The window that the throughput is measured over.

A ring of capacity `c` keeps push number `i` in the slot `i % c` until push number `i + c` takes
its place, `Holds`.  That one account covers a ring that is still filling up and one that has
wrapped around any number of times: the oldest value is in slot zero at first and in the slot
after the newest from then on, and both are the slot of the push `c` before the next one.  The
throughput is then the quotient over the last samples and no others, `measures_window`.
-/

namespace ImageUpload

namespace Ring

variable {α : Type} {r : Ring α} {values : List α}

/-- The ring after some values have been pushed. -/
def ofValues (capacity : Nat) (values : List α) : Ring α :=
  values.foldl push (empty capacity)

/-- The ring has taken these values, and the last of them, as many as it has room for, are in
their slots. -/
structure Holds (r : Ring α) (values : List α) : Prop where
  pos : 0 < r.capacity
  next : r.next = values.length % r.capacity
  size : r.slots.size = min values.length r.capacity
  slot : ∀ i, i < values.length → values.length ≤ i + r.capacity →
    r.slots[i % r.capacity]? = values[i]?

theorem holds_empty (capacity : Nat) : (empty capacity : Ring α).Holds [] where
  pos := Nat.le_max_left 1 capacity
  next := (Nat.zero_mod _).symm
  size := (Nat.zero_min _).symm
  slot _ hi := absurd hi (Nat.not_lt_zero _)

/-- Two pushes that come less than a round apart have two slots. -/
theorem slot_ne {c i n : Nat} (hlt : i < n) (hround : n < i + c) : i % c ≠ n % c := by
  intro heq
  have hdvd : c ∣ n - i := Nat.dvd_of_mod_eq_zero (Nat.sub_mod_eq_zero_of_mod_eq heq.symm)
  have hle := Nat.le_of_dvd (by omega) hdvd
  omega

/-- The slot that a full ring overwrites is one of its slots. -/
theorem Holds.next_lt (h : r.Holds values) (hfull : ¬r.slots.size < r.capacity) :
    r.next < r.slots.size := by
  have hlt := Nat.mod_lt values.length h.pos
  rw [h.next]
  omega

/-- A push writes to the slot `next`, which is new as long as there is room. -/
theorem Holds.slots_push (h : r.Holds values) (a : α) (j : Nat) :
    (r.push a).slots[j]? = if j = r.next then some a else r.slots[j]? := by
  show (if r.slots.size < r.capacity then r.slots.push a
    else r.slots.setIfInBounds r.next a)[j]? = _
  split
  next hroom =>
    have hsize := h.size
    have hnew : r.next = r.slots.size := by
      rw [h.next, Nat.mod_eq_of_lt (by omega)]
      omega
    rw [Array.getElem?_push, hnew]
  next hfull =>
    by_cases hj : j = r.next
    · rw [if_pos hj, hj]
      exact Array.getElem?_setIfInBounds_self_of_lt (h.next_lt hfull)
    · rw [if_neg hj]
      exact Array.getElem?_setIfInBounds_ne fun heq => hj heq.symm

theorem Holds.size_push (h : r.Holds values) (a : α) :
    (r.push a).slots.size = min (values.length + 1) r.capacity := by
  have hsize := h.size
  show (if r.slots.size < r.capacity then r.slots.push a
    else r.slots.setIfInBounds r.next a).size = _
  split
  · rw [Array.size_push]
    omega
  · rw [Array.size_setIfInBounds]
    omega

theorem Holds.push (h : r.Holds values) (a : α) : (r.push a).Holds (values ++ [a]) := by
  have hlength : (values ++ [a]).length = values.length + 1 := List.length_append
  refine ⟨h.pos, ?next, ?size, ?slot⟩
  case next =>
    show (r.next + 1) % r.capacity = _
    rw [h.next, Nat.mod_add_mod, hlength]
    rfl
  case size =>
    rw [hlength]
    exact h.size_push a
  case slot =>
    intro i hi hround
    change (values ++ [a]).length ≤ i + r.capacity at hround
    rw [hlength] at hi hround
    show (r.push a).slots[i % r.capacity]? = _
    rw [h.slots_push, h.next]
    by_cases hlast : i = values.length
    · rw [if_pos (by rw [hlast]), hlast, List.getElem?_concat_length]
    · -- the value that is overwritten is a round older than the new one
      have hold : i < values.length := by omega
      rw [if_neg (slot_ne hold (by omega)), List.getElem?_append_left hold]
      exact h.slot i hold (by omega)

theorem holds_foldl {seen : List α} (h : r.Holds seen) (values : List α) :
    (values.foldl Ring.push r).Holds (seen ++ values) := by
  induction values generalizing r seen with
  | nil => simpa using h
  | cons a rest ih => simpa using ih (h.push a)

theorem holds_ofValues (capacity : Nat) (values : List α) : (ofValues capacity values).Holds values :=
  holds_foldl (holds_empty capacity) values

theorem capacity_foldl (r : Ring α) (values : List α) :
    (values.foldl push r).capacity = r.capacity := by
  induction values generalizing r with
  | nil => rfl
  | cons a rest ih => exact ih (r.push a)

theorem capacity_ofValues (capacity : Nat) (values : List α) :
    (ofValues capacity values).capacity = max 1 capacity :=
  capacity_foldl (empty capacity) values

/-- The oldest value is the one that the ring would give up next. -/
theorem Holds.first?_eq (h : r.Holds values) :
    r.first? = values[values.length - r.capacity]? := by
  have hpos := h.pos
  have hsize := h.size
  unfold first?
  split
  next hfull =>
    have hround : values.length % r.capacity = (values.length - r.capacity) % r.capacity :=
      Nat.mod_eq_sub_mod (by omega)
    rw [h.next, hround]
    exact h.slot _ (by omega) (by omega)
  next hfilling =>
    rw [Nat.sub_eq_zero_of_le (by omega)]
    by_cases hnone : values.length = 0
    · rw [Array.getElem?_eq_none (by omega), List.getElem?_eq_none (by omega)]
    · have hslot := h.slot 0 (by omega) (by omega)
      rwa [Nat.zero_mod] at hslot

theorem Holds.last?_eq (h : r.Holds values) : r.last? = values.getLast? := by
  have hpos := h.pos
  have hsize := h.size
  rw [List.getLast?_eq_getElem?]
  unfold last?
  split
  next hnone =>
    rw [Array.isEmpty_iff_size_eq_zero] at hnone
    rw [List.getElem?_eq_none (by omega)]
  next hsome =>
    rw [Array.isEmpty_iff_size_eq_zero] at hsome
    have hback : (r.next + r.capacity - 1) % r.capacity = (values.length - 1) % r.capacity := by
      have hturn : r.next + r.capacity - 1 = r.next + (r.capacity - 1) := by omega
      have hround : values.length + (r.capacity - 1) = values.length - 1 + r.capacity := by omega
      rw [hturn, h.next, Nat.mod_add_mod, hround, Nat.add_mod_right]
    rw [hback]
    exact h.slot _ (by omega) (by omega)

end Ring

namespace Throughput

/-- The throughput after some samples have been taken. -/
def ofSamples (window : Nat) (samples : List Sample) : Throughput :=
  samples.foldl (fun t s => t.add s.cumulative s.time) (ofWindow window)

theorem samples_foldl (t : Throughput) (samples : List Sample) :
    (samples.foldl (fun t s => t.add s.cumulative s.time) t).samples =
      samples.foldl Ring.push t.samples := by
  induction samples generalizing t with
  | nil => rfl
  | cons s rest ih => exact ih (t.add s.cumulative s.time)

theorem samples_ofSamples (window : Nat) (samples : List Sample) :
    (ofSamples window samples).samples = .ofValues (max 2 window) samples :=
  samples_foldl (ofWindow window) samples

/-- The time between two samples is positive or counts as none. -/
theorem between_eq (oldest newest : Sample) :
    between oldest newest =
      if oldest.time < newest.time then
        wordToFloat (newest.cumulative - oldest.cumulative) /
          Duration.toSeconds ⟨newest.time - oldest.time⟩
      else 0 := by
  show (if newest.time - oldest.time = 0 then _ else _) = _
  by_cases h : oldest.time < newest.time
  · rw [if_pos h, if_neg (by omega)]
  · rw [if_neg h, if_pos (by omega)]

theorem size_ofSamples (window : Nat) (samples : List Sample) :
    (ofSamples window samples).samples.size = min samples.length (max 2 window) := by
  have hsize := (Ring.holds_ofValues (max 2 window) samples).size
  rw [Ring.capacity_ofValues] at hsize
  rw [samples_ofSamples]
  show (Ring.ofValues (max 2 window) samples).slots.size = _
  omega

theorem bytesPerSecond_of_few {window : Nat} {samples : List Sample} (h : samples.length < 2) :
    (ofSamples window samples).bytesPerSecond = 0 := by
  have hsize := size_ofSamples window samples
  unfold bytesPerSecond
  rw [if_pos (by omega)]

theorem bytesPerSecond_of_many {window : Nat} {samples : List Sample} {oldest newest : Sample}
    (h : 2 ≤ samples.length)
    (holdest : (samples.drop (samples.length - max 2 window)).head? = some oldest)
    (hnewest : samples.getLast? = some newest) :
    (ofSamples window samples).bytesPerSecond = between oldest newest := by
  have hholds := Ring.holds_ofValues (max 2 window) samples
  have hfirst := hholds.first?_eq
  have hsize := size_ofSamples window samples
  rw [Ring.capacity_ofValues, Nat.max_eq_right (by omega : 1 ≤ max 2 window), ← List.head?_drop,
    holdest] at hfirst
  unfold bytesPerSecond
  rw [if_neg (by omega), samples_ofSamples, hfirst, hholds.last?_eq, hnewest]

/-- A ring has the last values that were pushed, as many as there is room for, however often it
has wrapped around.  So the throughput is that from the oldest to the newest of the last samples,
two at least: what the count has grown by over the time in between. -/
theorem measures_window :
    (∀ (α : Type) (capacity : Nat) (values : List α),
      (Ring.ofValues capacity values).size = min values.length (max 1 capacity) ∧
        (Ring.ofValues capacity values).first? =
          values[values.length - min values.length (max 1 capacity)]? ∧
        (Ring.ofValues capacity values).last? = values.getLast?) ∧
      ∀ (window : Nat) (samples : List Sample),
        (samples.length < 2 → (ofSamples window samples).bytesPerSecond = 0) ∧
          ∀ oldest newest, 2 ≤ samples.length →
            (samples.drop (samples.length - max 2 window)).head? = some oldest →
            samples.getLast? = some newest →
            (ofSamples window samples).bytesPerSecond =
              if oldest.time < newest.time then
                wordToFloat (newest.cumulative - oldest.cumulative) /
                  Duration.toSeconds ⟨newest.time - oldest.time⟩
              else 0 := by
  refine ⟨fun α capacity values => ?ring, fun window samples => ⟨bytesPerSecond_of_few, ?speed⟩⟩
  case ring =>
    have hholds := Ring.holds_ofValues capacity values
    have hsize := hholds.size
    have hfirst := hholds.first?_eq
    rw [Ring.capacity_ofValues] at hsize hfirst
    have hback : values.length - max 1 capacity =
        values.length - min values.length (max 1 capacity) := by omega
    exact ⟨hsize, hback ▸ hfirst, hholds.last?_eq⟩
  case speed =>
    intro oldest newest hmany holdest hnewest
    rw [bytesPerSecond_of_many hmany holdest hnewest, between_eq]

/-- Seven values in three slots, a window that the first of four samples has left, and the last
two of three samples under a clock that was set back. -/
theorem measures_window_moved :
    (Ring.ofValues 3 [1, 2, 3, 4, 5, 6, 7]).first? = some 5 ∧
      (Ring.ofValues 3 [1, 2, 3, 4, 5, 6, 7]).last? = some 7 ∧
      (ofSamples 3 [⟨0, 0⟩, ⟨1000, 1000000000⟩, ⟨2000, 2000000000⟩,
        ⟨11000, 3000000000⟩]).bytesPerSecond = 5000 ∧
      (ofSamples 0 [⟨5, 1⟩, ⟨7, 9⟩, ⟨9, 8⟩]).bytesPerSecond = 0 := by
  obtain ⟨hring, hspeed⟩ := measures_window
  obtain ⟨-, hfirst, hlast⟩ := hring Nat 3 [1, 2, 3, 4, 5, 6, 7]
  obtain ⟨-, hmoved⟩ := hspeed 3 [⟨0, 0⟩, ⟨1000, 1000000000⟩, ⟨2000, 2000000000⟩, ⟨11000, 3000000000⟩]
  obtain ⟨-, hback⟩ := hspeed 0 [⟨5, 1⟩, ⟨7, 9⟩, ⟨9, 8⟩]
  exact ⟨hfirst, hlast, (hmoved _ _ (by decide) rfl rfl).trans (by decide +kernel),
    (hback _ _ (by decide) rfl rfl).trans rfl⟩

end Throughput
end ImageUpload
